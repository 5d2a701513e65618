import Mathlib.Data.List.Basic
import Mathlib.Order.Basic
import Mathlib.Order.Lattice
import Mathlib.Tactic.Common

/-!
# AVL trees

Binary search trees with data at the keys, whose subtrees differ in height by at most one. An update
of a key follows the search path, changes the data of the key or puts it at a new leaf, and rotates
on the way back where the side that was searched has become too high.
-/

namespace Avl

inductive Tree (κ β : Type*)
  | nil
  | node (l : Tree κ β) (k : κ) (v : β) (r : Tree κ β)

namespace Tree

variable {κ β : Type*}

def height : Tree κ β → ℕ
  | nil => 0
  | node l _ _ r => max l.height r.height + 1

def toList : Tree κ β → List (κ × β)
  | nil => []
  | node l k v r => l.toList ++ (k, v) :: r.toList

def map {γ : Type*} (f : β → γ) : Tree κ β → Tree κ γ
  | nil => nil
  | node l k v r => node (l.map f) k (f v) (r.map f)

@[simp] theorem height_map {γ : Type*} (f : β → γ) (t : Tree κ β) :
    (t.map f).height = t.height := by
  induction t with
  | nil => rfl
  | node l k v r ihl ihr => rw [map, height, height, ihl, ihr]

def Balanced : Tree κ β → Prop
  | nil => True
  | node l _ _ r => l.height ≤ r.height + 1 ∧ r.height ≤ l.height + 1 ∧ l.Balanced ∧ r.Balanced

def leftHigh : Tree κ β → Prop
  | nil => False
  | node l _ _ r => l.height = r.height + 1

def rightHigh : Tree κ β → Prop
  | nil => False
  | node l _ _ r => r.height = l.height + 1

/-! ## Rotations -/

def rotateLeftLeft : Tree κ β → Tree κ β
  | node (node a y w b) x v c => node a y w (node b x v c)
  | t => t

def rotateRightRight : Tree κ β → Tree κ β
  | node a x v (node b y w c) => node (node a x v b) y w c
  | t => t

def rotateLeftRight : Tree κ β → Tree κ β
  | node (node a y w (node b z u c)) x v d => node (node a y w b) z u (node c x v d)
  | t => t

def rotateRightLeft : Tree κ β → Tree κ β
  | node a x v (node (node b z u c) y w d) => node (node a x v b) z u (node c y w d)
  | t => t

instance (t : Tree κ β) : Decidable t.leftHigh := by
  cases t <;> unfold leftHigh <;> infer_instance

instance (t : Tree κ β) : Decidable t.rightHigh := by
  cases t <;> unfold rightHigh <;> infer_instance

/-- A node whose left subtree was updated. -/
def balanceLeft (l : Tree κ β) (k : κ) (v : β) (r : Tree κ β) : Tree κ β :=
  if l.height = r.height + 2 then
    if l.leftHigh then rotateLeftLeft (node l k v r) else rotateLeftRight (node l k v r)
  else node l k v r

def balanceRight (l : Tree κ β) (k : κ) (v : β) (r : Tree κ β) : Tree κ β :=
  if r.height = l.height + 2 then
    if r.rightHigh then rotateRightRight (node l k v r) else rotateRightLeft (node l k v r)
  else node l k v r

section
variable (t : Tree κ β)

@[simp] theorem toList_rotateLeftLeft : t.rotateLeftLeft.toList = t.toList := by
  unfold rotateLeftLeft
  split <;> simp [toList]

@[simp] theorem toList_rotateRightRight : t.rotateRightRight.toList = t.toList := by
  unfold rotateRightRight
  split <;> simp [toList]

@[simp] theorem toList_rotateLeftRight : t.rotateLeftRight.toList = t.toList := by
  unfold rotateLeftRight
  split <;> simp [toList]

@[simp] theorem toList_rotateRightLeft : t.rotateRightLeft.toList = t.toList := by
  unfold rotateRightLeft
  split <;> simp [toList]

end

@[simp] theorem toList_balanceLeft (l : Tree κ β) (k : κ) (v : β) (r : Tree κ β) :
    (balanceLeft l k v r).toList = l.toList ++ (k, v) :: r.toList := by
  unfold balanceLeft
  split_ifs <;> simp [toList]

@[simp] theorem toList_balanceRight (l : Tree κ β) (k : κ) (v : β) (r : Tree κ β) :
    (balanceRight l k v r).toList = l.toList ++ (k, v) :: r.toList := by
  unfold balanceRight
  split_ifs <;> simp [toList]

/-! ## Balance -/

/-- An update makes the tree at most one higher. A tree that has become higher leans to a side,
unless it is a new leaf. -/
structure Grown (t t' : Tree κ β) : Prop where
  balanced : t'.Balanced
  le : t.height ≤ t'.height
  le_succ : t'.height ≤ t.height + 1
  leans : t'.height = t.height + 1 → t.height = 0 ∨ t'.leftHigh ∨ t'.rightHigh

theorem leftHigh.exists_node {t : Tree κ β} (h : t.leftHigh) :
    ∃ a z u b y w c, t = node (node a z u b) y w c := by
  cases t with
  | nil => exact h.elim
  | node l y w c =>
    cases l with
    | nil => exact absurd h (by simp [leftHigh, height])
    | node a z u b => exact ⟨a, z, u, b, y, w, c, rfl⟩

theorem rightHigh.exists_node {t : Tree κ β} (h : t.rightHigh) :
    ∃ a y w b z u c, t = node a y w (node b z u c) := by
  cases t with
  | nil => exact h.elim
  | node a y w r =>
    cases r with
    | nil => exact absurd h (by simp [rightHigh, height])
    | node b z u c => exact ⟨a, y, w, b, z, u, c, rfl⟩

/-- A subtree that has become too high leans to a side. -/
theorem Grown.leans_of_high {t t' : Tree κ β} {n : ℕ} (h : Grown t t') (hle : t.height ≤ n + 1)
    (hhigh : t'.height = n + 2) : t'.leftHigh ∨ t'.rightHigh := by
  have hsucc := h.le_succ
  exact (h.leans (by omega)).resolve_left (by omega)

section
variable {l l' r r' : Tree κ β} {k : κ} {v : β} (ht : (node l k v r).Balanced)
include ht

theorem grown_balanceLeft (hl : Grown l l') : Grown (node l k v r) (balanceLeft l' k v r) := by
  obtain ⟨hlr, hrl, -, hr⟩ := ht
  have hlean := hl.leans_of_high hlr
  obtain ⟨hbal, hle, hle', -⟩ := hl
  unfold balanceLeft
  split_ifs with hhigh hleft
  · cases l' with
    | nil => exact nomatch hleft
    | node a y w b =>
      obtain ⟨hab, hba, ha, hb⟩ := hbal
      simp only [leftHigh] at hleft
      simp only [height] at *
      refine ⟨?_, ?_, ?_, ?_⟩ <;> simp only [rotateLeftLeft, Balanced, height] <;> try omega
      exact ⟨by omega, by omega, ha, by omega, by omega, hb, hr⟩
  · have hright := (hlean hhigh).resolve_left hleft
    obtain ⟨a, y, w, b, z, u, c, rfl⟩ := hright.exists_node
    obtain ⟨hab, hba, ha, hbc, hcb, hb, hc⟩ := hbal
    simp only [rightHigh] at hright
    simp only [height] at *
    refine ⟨?_, ?_, ?_, ?_⟩ <;> simp only [rotateLeftRight, Balanced, height] <;> try omega
    exact ⟨by omega, by omega, ⟨by omega, by omega, ha, hb⟩, by omega, by omega, hc, hr⟩
  · refine ⟨⟨by omega, by omega, hbal, hr⟩, ?_, ?_, fun hgrown => .inr (.inl ?_)⟩
    · simp only [height]
      omega
    · simp only [height]
      omega
    · simp only [height] at hgrown
      simp only [leftHigh]
      omega

theorem grown_balanceRight (hr : Grown r r') : Grown (node l k v r) (balanceRight l k v r') := by
  obtain ⟨hlr, hrl, hl, -⟩ := ht
  have hlean := hr.leans_of_high hrl
  obtain ⟨hbal, hle, hle', -⟩ := hr
  unfold balanceRight
  split_ifs with hhigh hright
  · cases r' with
    | nil => exact nomatch hright
    | node b y w c =>
      obtain ⟨hbc, hcb, hb, hc⟩ := hbal
      simp only [rightHigh] at hright
      simp only [height] at *
      refine ⟨?_, ?_, ?_, ?_⟩ <;> simp only [rotateRightRight, Balanced, height] <;> try omega
      exact ⟨by omega, by omega, ⟨by omega, by omega, hl, hb⟩, hc⟩
  · have hleft := (hlean hhigh).resolve_right hright
    obtain ⟨b, z, u, c, y, w, d, rfl⟩ := hleft.exists_node
    obtain ⟨hbd, hdb, ⟨hbc, hcb, hb, hc⟩, hd⟩ := hbal
    simp only [leftHigh] at hleft
    simp only [height] at *
    refine ⟨?_, ?_, ?_, ?_⟩ <;> simp only [rotateRightLeft, Balanced, height] <;> try omega
    exact ⟨by omega, by omega, ⟨by omega, by omega, hl, hb⟩, by omega, by omega, hc, hd⟩
  · refine ⟨⟨by omega, by omega, hl, hbal⟩, ?_, ?_, fun hgrown => .inr (.inr ?_)⟩
    · simp only [height]
      omega
    · simp only [height]
      omega
    · simp only [height] at hgrown
      simp only [rightHigh]
      omega

theorem height_balanceLeft_le (hl : Grown l l') :
    (balanceLeft l' k v r).height ≤ max l'.height r.height + 1 := by
  by_cases hhigh : l'.height = r.height + 2
  · have hsucc := (grown_balanceLeft ht hl).le_succ
    have hlr := ht.1
    simp only [height] at hsucc
    omega
  · rw [balanceLeft, if_neg hhigh, height]

theorem height_balanceRight_le (hr : Grown r r') :
    (balanceRight l k v r').height ≤ max l.height r'.height + 1 := by
  by_cases hhigh : r'.height = l.height + 2
  · have hsucc := (grown_balanceRight ht hr).le_succ
    have hrl := ht.2.1
    simp only [height] at hsucc
    omega
  · rw [balanceRight, if_neg hhigh, height]

end

/-! ## Updates -/

section
variable [LinearOrder κ]

def lookup (k : κ) : Tree κ β → Option β
  | nil => none
  | node l k' v r => if k = k' then some v else if k < k' then l.lookup k else r.lookup k

/-- Gives the key `k` the data `g`, which may depend on its data so far. -/
def update (k : κ) (g : Option β → β) : Tree κ β → Tree κ β
  | nil => node nil k (g none) nil
  | node l k' v r =>
    if k = k' then node l k' (g (some v)) r
    else if k < k' then balanceLeft (l.update k g) k' v r
    else balanceRight l k' v (r.update k g)

def pathLength (k : κ) : Tree κ β → ℕ
  | nil => 0
  | node l k' _ r => if k = k' then 1 else if k < k' then l.pathLength k + 1 else r.pathLength k + 1

def Ordered (t : Tree κ β) : Prop := t.toList.Pairwise fun a b => a.1 < b.1

theorem ordered_node {l r : Tree κ β} {k : κ} {v : β} : (node l k v r).Ordered ↔
    l.Ordered ∧ r.Ordered ∧ (∀ p ∈ l.toList, p.1 < k) ∧ ∀ p ∈ r.toList, k < p.1 := by
  unfold Ordered
  rw [toList, List.pairwise_append, List.pairwise_cons]
  constructor
  · rintro ⟨hl, ⟨hkr, hr⟩, hlr⟩
    exact ⟨hl, hr, fun p hp => hlr p hp _ List.mem_cons_self, hkr⟩
  · rintro ⟨hl, hr, hlk, hkr⟩
    refine ⟨hl, ⟨hkr, hr⟩, fun p hp q hq => ?_⟩
    rcases List.mem_cons.1 hq with rfl | hq
    · exact hlk p hp
    · exact (hlk p hp).trans (hkr q hq)

variable {t : Tree κ β}

theorem lookup_eq_some (ht : t.Ordered) {k : κ} {v : β} :
    t.lookup k = some v ↔ (k, v) ∈ t.toList := by
  induction t with
  | nil => simp [lookup, toList]
  | node l k' w r ihl ihr =>
    obtain ⟨hl, hr, hlk, hkr⟩ := ordered_node.1 ht
    rw [lookup, toList, List.mem_append, List.mem_cons, Prod.mk.injEq, ← ihl hl, ← ihr hr]
    have hnl (hle : k' ≤ k) : l.lookup k ≠ some v := fun h =>
      absurd (hlk _ ((ihl hl).1 h)) (not_lt.2 hle)
    have hnr (hle : k ≤ k') : r.lookup k ≠ some v := fun h =>
      absurd (hkr _ ((ihr hr).1 h)) (not_lt.2 hle)
    rcases lt_trichotomy k k' with hlt | rfl | hgt
    · simp [hlt.ne, hlt, hnr hlt.le]
    · simp [hnl le_rfl, hnr le_rfl, eq_comm]
    · simp [hgt.ne', hgt.not_gt, hnl hgt.le]

/-- What an update leaves at the keys. -/
theorem mem_toList_update (ht : t.Ordered) {k : κ} {g : Option β → β} {p : κ × β} :
    p ∈ (t.update k g).toList ↔ p = (k, g (t.lookup k)) ∨ p.1 ≠ k ∧ p ∈ t.toList := by
  induction t with
  | nil => simp [update, lookup, toList]
  | node l k' w r ihl ihr =>
    obtain ⟨hl, hr, hlk, hkr⟩ := ordered_node.1 ht
    have hnl (hle : k' ≤ k) (hp : p ∈ l.toList) : p.1 ≠ k := ((hlk p hp).trans_le hle).ne
    have hnr (hle : k ≤ k') (hp : p ∈ r.toList) : p.1 ≠ k := (hle.trans_lt (hkr p hp)).ne'
    rw [update, lookup, toList]
    rcases lt_trichotomy k k' with hlt | rfl | hgt
    · have hkey : p = (k', w) → p.1 ≠ k := fun h => by rw [h]; exact hlt.ne'
      simp only [hlt.ne, hlt, if_true, if_false, toList_balanceLeft, List.mem_append, List.mem_cons,
        ihl hl]
      grind
    · simp only [if_true, toList, List.mem_append, List.mem_cons]
      grind
    · have hkey : p = (k', w) → p.1 ≠ k := fun h => by rw [h]; exact hgt.ne
      simp only [hgt.ne', hgt.not_gt, if_false, toList_balanceRight, List.mem_append, List.mem_cons,
        ihr hr]
      grind

theorem Ordered.update (ht : t.Ordered) (k : κ) (g : Option β → β) : (t.update k g).Ordered := by
  induction t with
  | nil => exact List.pairwise_singleton _ _
  | node l k' w r ihl ihr =>
    obtain ⟨hl, hr, hlk, hkr⟩ := ordered_node.1 ht
    rw [Tree.update]
    rcases lt_trichotomy k k' with hlt | rfl | hgt
    · rw [if_neg hlt.ne, if_pos hlt, Ordered, toList_balanceLeft]
      refine ordered_node.2 ⟨ihl hl, hr, fun p hp => ?_, hkr⟩
      rcases (mem_toList_update hl).1 hp with rfl | ⟨-, hp⟩
      · exact hlt
      · exact hlk p hp
    · rw [if_pos rfl]
      exact ordered_node.2 ⟨hl, hr, hlk, hkr⟩
    · rw [if_neg hgt.ne', if_neg hgt.not_gt, Ordered, toList_balanceRight]
      refine ordered_node.2 ⟨hl, ihr hr, hlk, fun p hp => ?_⟩
      rcases (mem_toList_update hr).1 hp with rfl | ⟨-, hp⟩
      · exact hgt
      · exact hkr p hp

theorem lookup_update (ht : t.Ordered) (k : κ) (g : Option β → β) (k' : κ) :
    (t.update k g).lookup k' = if k' = k then some (g (t.lookup k)) else t.lookup k' := by
  apply Option.ext
  intro v
  rw [lookup_eq_some (ht.update k g), mem_toList_update ht]
  split_ifs with h
  · simp [h, eq_comm]
  · simp [h, lookup_eq_some ht]

theorem grown_update (ht : t.Balanced) (k : κ) (g : Option β → β) : Grown t (t.update k g) := by
  induction t with
  | nil =>
    exact ⟨⟨Nat.zero_le _, Nat.zero_le _, trivial, trivial⟩, Nat.zero_le _, le_rfl,
      fun _ => .inl rfl⟩
  | node l k' w r ihl ihr =>
    rw [update]
    split_ifs
    · exact ⟨ht, le_rfl, Nat.le_succ _, fun h => absurd h (by simp [height])⟩
    · exact grown_balanceLeft ht (ihl ht.2.2.1)
    · exact grown_balanceRight ht (ihr ht.2.2.2)

/-- Nothing is rotated if the key has data already. -/
theorem height_update_of_lookup (ht : t.Balanced) {k : κ} {v : β} (hk : t.lookup k = some v)
    (g : Option β → β) : (t.update k g).height = t.height := by
  induction t with
  | nil => exact nomatch hk
  | node l k' w r ihl ihr =>
    obtain ⟨hlr, hrl, hl, hr⟩ := ht
    rw [lookup] at hk
    rw [update]
    split_ifs at hk ⊢
    · rfl
    · have hheight := ihl hl hk
      rw [balanceLeft, if_neg (by omega), height, hheight, height]
    · have hheight := ihr hr hk
      rw [balanceRight, if_neg (by omega), height, hheight, height]

/-- The new leaf is one below the search path. -/
theorem height_update_le (ht : t.Balanced) (k : κ) (g : Option β → β) :
    (t.update k g).height ≤ max t.height (t.pathLength k + 1) := by
  induction t with
  | nil => exact le_rfl
  | node l k' w r ihl ihr =>
    have hl := ht.2.2.1
    have hr := ht.2.2.2
    rw [update, pathLength]
    split_ifs
    · exact le_max_left _ _
    · have hbal := height_balanceLeft_le ht (grown_update hl k g)
      have hbound := ihl hl
      simp only [height]
      omega
    · have hbal := height_balanceRight_le ht (grown_update hr k g)
      have hbound := ihr hr
      simp only [height]
      omega

end

end Tree

end Avl
