import Mathlib.Algebra.Group.Defs
import Mathlib.Data.List.Chain
import Mathlib.Data.List.Perm.Basic
import Mathlib.Data.List.Sort
import Mathlib.Data.Prod.Lex
import Mathlib.Order.Defs.LinearOrder
import Mathlib.Logic.Function.Basic

/-!
# Memory traces

A trace of timed accesses can be checked in two ways. Replayed in the order of time, every load has
the value that the memory holds at its address. Sorted by address and time, every load has the
value of the access next to it if that is at the same address, and `0` otherwise. The two agree on
the same accesses (`checked_iff_replays`), since both say that a load has the value of the latest
access before it (`Coherent`), which does not depend on the order of the list.
-/

namespace MemoryTrace

/-- An access that is not a load leaves its value in the memory. -/
structure Access (α β : Type) where
  addr : α
  ts : ℕ
  load : Prop
  value : β

section
variable {α β : Type}

def Before (a b : Access α β) : Prop := a.addr = b.addr ∧ a.ts < b.ts

/-- `a` is the latest access in `l` before `b`. -/
structure Latest (l : List (Access α β)) (a b : Access α β) : Prop where
  mem : a ∈ l
  before : Before a b
  max : ∀ c ∈ l, Before c b → c.ts ≤ a.ts

/-- Every load has the value of the latest access before it, or the value of the memory `m` at its
address if there is none. -/
def Coherent (m : α → β) (l : List (Access α β)) : Prop :=
  ∀ b ∈ l, b.load → (∀ a, Latest l a b → b.value = a.value) ∧
    ((∀ a ∈ l, ¬ Before a b) → b.value = m b.addr)

variable {l l' : List (Access α β)}

theorem Latest.perm {a b : Access α β} (hl : l.Perm l') (h : Latest l a b) : Latest l' a b :=
  ⟨hl.mem_iff.mp h.mem, h.before, fun c hc => h.max c (hl.mem_iff.mpr hc)⟩

theorem Coherent.perm {m : α → β} (hl : l.Perm l') (h : Coherent m l) : Coherent m l' := by
  intro b hb hload
  obtain ⟨hlatest, hnone⟩ := h b (hl.mem_iff.mpr hb) hload
  exact ⟨fun a ha => hlatest a (ha.perm hl.symm),
    fun hno => hnone fun a ha => hno a (hl.mem_iff.mp ha)⟩

theorem coherent_perm_iff {m : α → β} (hl : l.Perm l') :
    Coherent m l ↔ Coherent m l' := ⟨.perm hl, .perm hl.symm⟩

/-! ## Replay -/

section
variable [DecidableEq α]

/-- The trace runs from the memory `m`. -/
def Replays : (α → β) → List (Access α β) → Prop
  | _, [] => True
  | m, a :: l => (a.load → a.value = m a.addr) ∧ Replays (Function.update m a.addr a.value) l

/-- An access moved into the initial memory. -/
theorem coherent_cons_iff {m : α → β} {a : Access α β} {l : List (Access α β)}
    (hts : ∀ b ∈ l, a.ts < b.ts) :
    Coherent m (a :: l) ↔
      (a.load → a.value = m a.addr) ∧ Coherent (Function.update m a.addr a.value) l := by
  have hnone : ∀ b ∈ a :: l, ¬ Before b a := by
    rintro b hb ⟨-, hlt⟩
    rcases List.mem_cons.mp hb with rfl | hb
    · exact lt_irrefl _ hlt
    · exact lt_asymm hlt (hts b hb)
  -- the latest access before one of `l` is in `l`, unless there is none in `l`
  have hlatest : ∀ b, ∀ c ∈ l, Before c b → ¬ Latest (a :: l) a b := by
    intro b c hc hcb hl
    exact absurd (hl.max c (List.mem_cons_of_mem a hc) hcb) (not_le.mpr (hts c hc))
  constructor
  · intro h
    refine ⟨fun hload => (h a List.mem_cons_self hload).2 hnone, fun b hb hload => ?_⟩
    obtain ⟨hl, hn⟩ := h b (List.mem_cons_of_mem a hb) hload
    constructor
    · intro c hc
      refine hl c ⟨List.mem_cons_of_mem a hc.mem, hc.before, fun e he heb => ?_⟩
      rcases List.mem_cons.mp he with rfl | he
      · exact (hts c hc.mem).le
      · exact hc.max e he heb
    · intro hno
      by_cases haddr : a.addr = b.addr
      · have hb' : b.value = a.value := hl a ⟨List.mem_cons_self, ⟨haddr, hts b hb⟩,
          fun e he heb => by
          rcases List.mem_cons.mp he with rfl | he
          · exact le_rfl
          · exact absurd heb (hno e he)⟩
        rw [hb', ← haddr, Function.update_self]
      · rw [Function.update_of_ne (Ne.symm haddr)]
        refine hn fun e he heb => ?_
        rcases List.mem_cons.mp he with rfl | he
        · exact haddr heb.1
        · exact hno e he heb
  · rintro ⟨ha, h⟩ b hb hload
    rcases List.mem_cons.mp hb with rfl | hb
    · exact ⟨fun c hc => absurd hc.before (hnone c hc.mem), fun _ => ha hload⟩
    · obtain ⟨hl, hn⟩ := h b hb hload
      constructor
      · intro c hc
        rcases List.mem_cons.mp hc.mem with rfl | hcl
        · have hno : ∀ e ∈ l, ¬ Before e b := fun e he heb => hlatest b e he heb hc
          rw [hn hno, ← hc.before.1, Function.update_self]
        · exact hl c ⟨hcl, hc.before, fun e he => hc.max e (List.mem_cons_of_mem a he)⟩
      · intro hno
        have haddr : b.addr ≠ a.addr := fun heq =>
          hno a List.mem_cons_self ⟨heq.symm, hts b hb⟩
        rw [hn fun e he => hno e (List.mem_cons_of_mem a he), Function.update_of_ne haddr]

theorem replays_iff_coherent {m : α → β} {l : List (Access α β)}
    (hl : l.Pairwise fun a b => a.ts < b.ts) : Replays m l ↔ Coherent m l := by
  induction l generalizing m with
  | nil => simp [Replays, Coherent]
  | cons a l ih =>
    obtain ⟨hts, hl⟩ := List.pairwise_cons.mp hl
    rw [Replays, ih hl, coherent_cons_iff hts]

end

end

/-! ## The sorted trace -/

section
variable {α β : Type} [LinearOrder α]

def Lex (a b : Access α β) : Prop := a.addr < b.addr ∨ a.addr = b.addr ∧ a.ts < b.ts

theorem Lex.not_before {a b : Access α β} (h : Lex a b) : ¬ Before b a := by
  rintro ⟨haddr, hts⟩
  rcases h with h | ⟨-, h⟩
  · exact h.ne haddr.symm
  · exact lt_asymm h hts

theorem Lex.trans {a b c : Access α β} (hab : Lex a b) (hbc : Lex b c) : Lex a c := by
  rcases hab with hab | ⟨hab, htab⟩
  · rcases hbc with hbc | ⟨hbc, -⟩
    · exact .inl (hab.trans hbc)
    · exact .inl (hbc ▸ hab)
  · rcases hbc with hbc | ⟨hbc, htbc⟩
    · exact .inl (hab ▸ hbc)
    · exact .inr ⟨hab.trans hbc, htab.trans htbc⟩

section
variable {pre post : List (Access α β)} {a b : Access α β}

/-- In a sorted trace, what is before an access stands in front of it. -/
private theorem mem_of_before (hl : (pre ++ b :: post).Pairwise Lex) {c : Access α β}
    (hc : c ∈ pre ++ b :: post) (hcb : Before c b) : c ∈ pre := by
  obtain ⟨-, hpost, -⟩ := List.pairwise_append.mp hl
  rcases List.mem_append.mp hc with hc | hc
  · exact hc
  · rcases List.mem_cons.mp hc with rfl | hc
    · exact absurd hcb.2 (lt_irrefl _)
    · exact absurd hcb ((List.pairwise_cons.mp hpost).1 c hc).not_before

private theorem lex_or_eq (hl : (pre ++ a :: b :: post).Pairwise Lex) {c : Access α β}
    (hc : c ∈ pre ++ a :: b :: post) (hcb : Before c b) : Lex c a ∨ c = a := by
  have hc' : c ∈ pre ++ [a] := mem_of_before (by simpa using hl) (by simpa using hc) hcb
  rcases List.mem_append.mp hc' with hc' | hc'
  · exact .inl ((List.pairwise_append.mp hl).2.2 c hc' a List.mem_cons_self)
  · exact .inr (List.mem_singleton.mp hc')

theorem latest_of_neighbour (hl : (pre ++ a :: b :: post).Pairwise Lex) (haddr : a.addr = b.addr) :
    Latest (pre ++ a :: b :: post) a b := by
  have hab : Lex a b := by
    have h := (List.pairwise_append.mp hl).2.1
    exact (List.pairwise_cons.mp h).1 b List.mem_cons_self
  refine ⟨by simp, ⟨haddr, ?_⟩, fun c hc hcb => ?_⟩
  · exact (hab.resolve_left haddr.not_lt).2
  · rcases lex_or_eq hl hc hcb with (h | ⟨-, h⟩) | rfl
    · exact absurd (hcb.1.trans haddr.symm) h.ne
    · exact h.le
    · exact le_rfl

theorem not_before_of_neighbour (hl : (pre ++ a :: b :: post).Pairwise Lex)
    (haddr : a.addr < b.addr) : ∀ c ∈ pre ++ a :: b :: post, ¬ Before c b := by
  intro c hc hcb
  rcases lex_or_eq hl hc hcb with (h | ⟨h, -⟩) | rfl
  · exact (h.trans haddr).ne hcb.1
  · exact haddr.ne (h ▸ hcb.1)
  · exact haddr.ne hcb.1

end

/-- Accesses at different times can be sorted. -/
theorem exists_sorted {γ : Type} (f : γ → Access α β) {l : List γ}
    (h : l.Pairwise fun a b => (f a).ts ≠ (f b).ts) :
    ∃ l' : List γ, l'.Perm l ∧ (l'.map f).Pairwise Lex := by
  let r : γ → γ → Prop := fun a b => toLex ((f a).addr, (f a).ts) ≤ toLex ((f b).addr, (f b).ts)
  have : Std.Total r := ⟨fun _ _ => le_total _ _⟩
  have : IsTrans γ r := ⟨fun _ _ _ => le_trans⟩
  have hperm := List.perm_insertionSort r l
  refine ⟨l.insertionSort r, hperm, List.pairwise_map.mpr ?_⟩
  have hne := (hperm.pairwise_iff Ne.symm).mpr h
  refine ((List.pairwise_insertionSort r l).and hne).imp ?_
  rintro a b ⟨hle, hts⟩
  rcases Prod.Lex.toLex_le_toLex.mp hle with hlt | ⟨heq, hle⟩
  · exact .inl hlt
  · exact .inr ⟨heq, lt_of_le_of_ne hle hts⟩

variable [Zero β]

/-- What is checked of neighbours in the sorted trace. -/
def Adjacent (a b : Access α β) : Prop :=
  (a.addr < b.addr ∧ (b.load → b.value = 0)) ∨
    (a.addr = b.addr ∧ a.ts < b.ts ∧ (b.load → a.value = b.value))

structure Checked (l : List (Access α β)) : Prop where
  first : ∀ a ∈ l.head?, a.load → a.value = 0
  adjacent : l.IsChain Adjacent

theorem Adjacent.lex {a b : Access α β} (h : Adjacent a b) : Lex a b :=
  h.imp And.left fun h => ⟨h.1, h.2.1⟩

/-- A checked trace is sorted. -/
theorem Checked.sorted {l : List (Access α β)} (h : Checked l) : l.Pairwise Lex := by
  have : Trans (α := Access α β) Lex Lex Lex := ⟨Lex.trans⟩
  exact (h.adjacent.imp fun _ _ => Adjacent.lex).pairwise

/-- The check of a sorted trace says that it is coherent. -/
theorem checked_iff_coherent {l : List (Access α β)} (hl : l.Pairwise Lex) :
    Checked l ↔ Coherent (fun _ => 0) l := by
  constructor
  · intro h b hb hload
    obtain ⟨pre, post, rfl⟩ := List.append_of_mem hb
    rcases List.eq_nil_or_concat pre with rfl | ⟨pre, a, rfl⟩
    · -- nothing stands in front of the first access
      refine ⟨fun a ha => ?_, fun _ => h.first b rfl hload⟩
      exact absurd (mem_of_before hl ha.mem ha.before) List.not_mem_nil
    · simp only [List.concat_eq_append, List.append_assoc, List.cons_append, List.nil_append]
        at hl h ⊢
      have hab : Adjacent a b := List.isChain_iff_forall_rel_of_append_cons_cons.mp h.adjacent rfl
      rcases hab with ⟨haddr, hval⟩ | ⟨haddr, -, hval⟩
      · have hno := not_before_of_neighbour hl haddr
        exact ⟨fun c hc => absurd hc.before (hno c hc.mem), fun _ => hval hload⟩
      · have hlatest := latest_of_neighbour hl haddr
        refine ⟨fun c hc => ?_, fun hno => absurd hlatest.before (hno a hlatest.mem)⟩
        -- the latest access is unique
        have hca : c = a := by
          rcases lex_or_eq hl hc.mem hc.before with (hlt | ⟨-, hlt⟩) | heq
          · exact absurd (hc.before.1.trans haddr.symm) hlt.ne
          · exact absurd (hc.max a hlatest.mem hlatest.before) (not_le.mpr hlt)
          · exact heq
        rw [hca, hval hload]
  · intro h
    constructor
    · intro a ha hload
      cases l with
      | nil => cases ha
      | cons b l =>
        obtain rfl : b = a := by simpa using ha
        have hl : ([] ++ b :: l).Pairwise Lex := hl
        refine (h b List.mem_cons_self hload).2 fun c hc hcb => ?_
        exact absurd (mem_of_before hl hc hcb) List.not_mem_nil
    · refine List.isChain_iff_forall_rel_of_append_cons_cons.mpr ?_
      rintro a b pre post rfl
      have hab : Lex a b := by
        have h := (List.pairwise_append.mp hl).2.1
        exact (List.pairwise_cons.mp h).1 b List.mem_cons_self
      rcases hab with haddr | ⟨haddr, hts⟩
      · exact .inl ⟨haddr, fun hload =>
          (h b (by simp) hload).2 (not_before_of_neighbour hl haddr)⟩
      · exact .inr ⟨haddr, hts, fun hload =>
          ((h b (by simp) hload).1 a (latest_of_neighbour hl haddr)).symm⟩

/-- The check of the sorted trace and the replay of the trace agree. -/
theorem checked_iff_replays {sorted trace : List (Access α β)} (hperm : sorted.Perm trace)
    (hsorted : sorted.Pairwise Lex) (htrace : trace.Pairwise fun a b => a.ts < b.ts) :
    Checked sorted ↔ Replays (fun _ => 0) trace := by
  rw [checked_iff_coherent hsorted, replays_iff_coherent htrace, coherent_perm_iff hperm]

end

end MemoryTrace
