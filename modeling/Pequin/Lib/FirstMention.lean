import Mathlib.Data.List.Induction
import Mathlib.Data.List.Nodup

/-!
# The order of first mention

A list mentions its elements in the order in which `eraseDups` keeps them. `Mentions seen l new`
says which elements `l` mentions for the first time, in order, when those of `seen` are known
already.
-/

namespace FirstMention

variable {α β : Type} [DecidableEq α]

/-- After `seen`, the list `l` mentions `new`. -/
def Mentions (seen l new : List α) : Prop := (l.removeAll seen).eraseDups = new

theorem mentions_nil_iff {l new : List α} : Mentions [] l new ↔ l.eraseDups = new := by
  unfold Mentions
  rw [List.removeAll, List.filter_eq_self.mpr (by simp)]

theorem removeAll_append (l seen more : List α) :
    (l.removeAll seen).removeAll (more.removeAll seen) = l.removeAll (seen ++ more) := by
  unfold List.removeAll
  rw [List.filter_filter]
  refine List.filter_congr fun x _ => ?_
  by_cases hseen : x ∈ seen <;> simp [hseen]

theorem Mentions.append {seen l₁ l₂ new₁ new₂ : List α} (h₁ : Mentions seen l₁ new₁)
    (h₂ : Mentions (seen ++ l₁) l₂ new₂) : Mentions seen (l₁ ++ l₂) (new₁ ++ new₂) := by
  unfold Mentions at *
  rw [List.removeAll, List.filter_append, List.eraseDups_append]
  change (l₁.removeAll seen).eraseDups ++
    ((l₂.removeAll seen).removeAll (l₁.removeAll seen)).eraseDups = _
  rw [removeAll_append, h₁, h₂]

theorem Mentions.mem_iff {seen l new : List α} (h : Mentions seen l new) {x : α} :
    x ∈ new ↔ x ∈ l ∧ x ∉ seen := by
  rw [← h, List.mem_eraseDups, List.removeAll, List.mem_filter]
  simp

/-- What has been seen is what was seen before and what is new. -/
theorem Mentions.mem_append_iff {seen l new : List α} (h : Mentions seen l new) {x : α} :
    x ∈ seen ++ l ↔ x ∈ seen ∨ x ∈ new := by
  rw [List.mem_append, h.mem_iff]
  tauto

/-- Nothing new is mentioned. -/
theorem mentions_of_subset {seen l : List α} (h : ∀ x ∈ l, x ∈ seen) : Mentions seen l [] := by
  unfold Mentions
  rw [List.removeAll, List.filter_eq_nil_iff.mpr (by simpa using h), List.eraseDups_nil]

theorem mentions_singleton {seen : List α} {x : α} (h : x ∉ seen) : Mentions seen [x] [x] := by
  unfold Mentions
  rw [List.removeAll, List.filter_eq_self.mpr (by simpa using h)]
  rfl

theorem mentions_of_nodup {seen l : List α} (hl : l.Nodup) (h : ∀ x ∈ l, x ∉ seen) :
    Mentions seen l l := by
  induction l generalizing seen with
  | nil => exact mentions_of_subset (by simp)
  | cons x l ih =>
    obtain ⟨hx, hl⟩ := List.nodup_cons.mp hl
    refine Mentions.append (mentions_singleton (h x List.mem_cons_self)) (ih hl fun y hy hmem => ?_)
    rcases List.mem_append.mp hmem with hseen | hmem
    · exact h y (List.mem_cons_of_mem x hy) hseen
    · exact hx (List.mem_singleton.mp hmem ▸ hy)

/-- Every element stands for a block of its own. -/
theorem eraseDups_flatMap [DecidableEq β] (f : α → List β) (hf : ∀ x, (f x).Nodup)
    (hdisj : ∀ x y b, b ∈ f x → b ∈ f y → x = y) (l : List α) :
    (l.flatMap f).eraseDups = l.eraseDups.flatMap f := by
  induction l using List.reverseRecOn with
  | nil => rfl
  | append_singleton l x ih =>
    rw [List.flatMap_append, List.flatMap_singleton, List.eraseDups_append, ih,
      List.eraseDups_append, List.flatMap_append]
    congr 1
    change Mentions (l.flatMap f) (f x) _
    by_cases hx : x ∈ l
    · have hnone : Mentions l [x] [] := mentions_of_subset (by simpa using hx)
      rw [hnone]
      exact mentions_of_subset fun b hb => List.mem_flatMap.mpr ⟨x, hx, hb⟩
    · rw [mentions_singleton hx, List.flatMap_singleton]
      refine mentions_of_nodup (hf x) fun b hb hmem => hx ?_
      obtain ⟨y, hy, hby⟩ := List.mem_flatMap.mp hmem
      rw [hdisj x y b hb hby]
      exact hy

theorem nodup_eraseDups (l : List α) : l.eraseDups.Nodup := by
  induction l using List.reverseRecOn with
  | nil => exact List.nodup_nil
  | append_singleton l x ih =>
    rw [List.eraseDups_append]
    by_cases hx : x ∈ l
    · have hnone : Mentions l [x] [] := mentions_of_subset (by simpa using hx)
      rw [hnone, List.append_nil]
      exact ih
    · rw [mentions_singleton hx]
      refine List.nodup_append.mpr ⟨ih, List.nodup_singleton x, fun y hy z hz he => hx ?_⟩
      rw [← List.mem_singleton.mp hz, ← he]
      exact List.mem_eraseDups.mp hy

/-! ## Writing values to names -/

/-- Values written to different names are read back. -/
theorem lookup_of_mem {l : List (α × β)} (hl : (l.map Prod.fst).Nodup) {x : α} {b : β}
    (h : (x, b) ∈ l) : l.lookup x = some b := by
  induction l with
  | nil => cases h
  | cons p l ih =>
    obtain ⟨hp, hl⟩ := List.nodup_cons.mp hl
    rcases List.mem_cons.mp h with rfl | h
    · exact List.lookup_cons_self
    · have hne : (x == p.1) = false := by
        refine beq_eq_false_iff_ne.mpr fun he => hp ?_
        rw [← he]
        exact List.mem_map_of_mem (f := Prod.fst) h
      rw [List.lookup_cons, hne]
      exact ih hl h

omit [DecidableEq α] in
/-- Blocks of names and blocks of values. -/
theorem zip_flatMap {γ δ : Type} (f : α → List γ) (g : β → List δ)
    (hlen : ∀ x y, (f x).length = (g y).length) (l : List α) (m : List β) :
    (l.flatMap f).zip (m.flatMap g) = (l.zip m).flatMap fun p => (f p.1).zip (g p.2) := by
  induction l generalizing m with
  | nil => simp
  | cons x l ih =>
    cases m with
    | nil => simp
    | cons y m => rw [List.flatMap_cons, List.flatMap_cons, List.zip_append (hlen x y), ih]; rfl

end FirstMention
