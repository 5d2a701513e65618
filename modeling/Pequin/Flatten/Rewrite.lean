import Pequin.Lib.Structured
import Mathlib.Data.Nat.Notation

/-!
# Rewriting `break` and `continue`

A flattened loop is a state machine. Inside the code of a state, `BreakContinueRewriteVisitor`
replaces the text of a `break` or `continue` by an assignment of the state variable and one of the
guard variable, and puts the statements that follow in the same braces under the guard.

The replacement is text, and where the `break` stands in braces it is what it looks like. A branch
of an `if` without braces is one statement only: the assignment of the guard, which is the second
one, then stands after the `if`.
-/

namespace Pequin.Flatten

open Structured

variable {S : Type}

/-- The variables of the flattened program: the original ones, the state and the break guard. -/
structure Config (S : Type) where
  store : S
  state : ℕ
  breakGuard : Bool

def storeLens : Lens S (Config S) where
  get := Config.store
  set τ σ := { τ with store := σ }
  get_set _ _ := rfl
  set_get _ := rfl
  set_set _ _ _ := rfl

def setState (k : ℕ) : Stmt (Config S) := .expr fun τ => { τ with state := k }

def incState : Stmt (Config S) := .expr fun τ => { τ with state := τ.state + 1 }

def setGuard (b : Bool) : Stmt (Config S) := .expr fun τ => { τ with breakGuard := b }

/-! ## The rewriting -/

mutual
/-- There is a `break` or `continue` below the statement, at whatever loop it aims. -/
def needsRewrite : Stmt S → Bool
  | .expr _ => false
  | .ifThen _ s => needsRewrite s
  | .ifElse _ s t => needsRewrite s || needsRewrite t
  | .block b => needsRewriteBlock b
  | .loop _ s => needsRewrite s
  | .brk | .cont => true

def needsRewriteBlock : Block S → Bool
  | .nil => false
  | .cons s b => needsRewrite s || needsRewriteBlock b
end

def isNil : Block S → Bool
  | .nil => true
  | .cons _ _ => false

def guarded (b : Block (Config S)) : Block (Config S) :=
  .cons (.ifThen (fun τ => !τ.breakGuard) (.block b)) .nil

mutual
/-- `doRewrite`: the statements that the text of a statement is read as afterwards, where the
iteration of the flattened loop ends in the state `targetState`. Of the text of a branch or a loop
body only the first statement belongs to it. The result is `none` if the text is no C program: an
`else` or the `while` of a `do` loop comes after two statements. -/
def doRewrite (targetState : ℕ) : Stmt S → Option (Block (Config S))
  | .expr f => some (.cons (.expr (storeLens.liftFun f)) .nil)
  | .ifThen c s =>
    match doRewrite targetState s with
    | some (.cons a rest) => some (.cons (.ifThen (storeLens.liftCond c) a) rest)
    | _ => none
  | .ifElse c s t =>
    match doRewrite targetState s, doRewrite targetState t with
    | some (.cons a .nil), some (.cons b rest) =>
      some (.cons (.ifElse (storeLens.liftCond c) a b) rest)
    | _, _ => none
  | .block b => (doRewriteBlock targetState b).map fun b' => .cons (.block b') .nil
  | .loop head s =>
    match doRewrite targetState s with
    | some (.cons a rest) =>
      if head.testFirst || isNil rest then some (.cons (.loop (head.lift storeLens) a) rest)
      else none
    | _ => none
  | .brk => some (.cons (setState targetState) (.cons (setGuard true) .nil))
  | .cont => some (.cons (setState (targetState - 1)) (.cons (setGuard true) .nil))

/-- `TraverseCompoundStmt`: what follows a statement with a `break` or `continue` is guarded. -/
def doRewriteBlock (targetState : ℕ) : Block S → Option (Block (Config S))
  | .nil => some .nil
  | .cons s b => do
    let l ← doRewrite targetState s
    let b' ← doRewriteBlock targetState b
    some (l ++ if needsRewrite s && !isNil b then guarded b' else b')
end

/-! ## Statements without `break` and `continue` -/

mutual
theorem doRewrite_eq_lift (T : ℕ) : (s : Stmt S) → needsRewrite s = false →
    doRewrite T s = some (.cons (s.lift storeLens) .nil)
  | .expr _, _ => rfl
  | .ifThen c s, h => by
    rw [doRewrite, doRewrite_eq_lift T s h]
    rfl
  | .ifElse c s t, h => by
    rw [needsRewrite, Bool.or_eq_false_iff] at h
    rw [doRewrite, doRewrite_eq_lift T s h.1, doRewrite_eq_lift T t h.2]
    rfl
  | .block b, h => by
    rw [doRewrite, doRewriteBlock_eq_lift T b h]
    rfl
  | .loop head s, h => by
    rw [doRewrite, doRewrite_eq_lift T s h]
    simp only [isNil, Bool.or_true, if_true]
    rfl

theorem doRewriteBlock_eq_lift (T : ℕ) : (b : Block S) → needsRewriteBlock b = false →
    doRewriteBlock T b = some (b.lift storeLens)
  | .nil, _ => rfl
  | .cons s b, h => by
    rw [needsRewriteBlock, Bool.or_eq_false_iff] at h
    rw [doRewriteBlock, doRewrite_eq_lift T s h.1, doRewriteBlock_eq_lift T b h.2, h.1]
    rfl
end

mutual
theorem outcome_normal : (s : Stmt S) → needsRewrite s = false → {σ : S} → {o : Outcome} →
    {σ' : S} → s.Exec σ o σ' → o = .normal
  | .expr _, _, _, _, _, h => h.1
  | .ifThen c s, hs, _, _, _, h => by
    unfold Stmt.Exec at h
    split at h
    · exact outcome_normal s hs h
    · exact h.1
  | .ifElse c s t, hs, _, _, _, h => by
    rw [needsRewrite, Bool.or_eq_false_iff] at hs
    unfold Stmt.Exec at h
    split at h
    · exact outcome_normal s hs.1 h
    · exact outcome_normal t hs.2 h
  | .block b, hs, _, _, _, h => outcome_normal_block b hs h
  | .loop .., _, _, _, _, h => h.1

theorem outcome_normal_block : (b : Block S) → needsRewriteBlock b = false → {σ : S} →
    {o : Outcome} → {σ' : S} → b.Exec σ o σ' → o = .normal
  | .nil, _, _, _, _, h => h.1
  | .cons s b, hb, _, _, _, h => by
    rw [needsRewriteBlock, Bool.or_eq_false_iff] at hb
    rcases h with ⟨_, _, hb'⟩ | ⟨ho, hs⟩
    · exact outcome_normal_block b hb.2 hb'
    · exact absurd (outcome_normal s hb.1 hs) ho
end

/-! ## Tame statements -/

/-- The text of the statement ends with the assignment of a guard that has left the braces. -/
def loose : Stmt S → Bool
  | .ifThen _ s | .loop _ s => loose s
  | .ifElse _ _ t => loose t
  | .brk | .cont => true
  | _ => false

mutual
/-- The guard may be set although neither `break` nor `continue` was executed. -/
def leaky : Stmt S → Bool
  | .ifThen _ s => loose s || leaky s
  | .ifElse _ s t => loose t || leaky s || leaky t
  | .block b => leakyBlock b
  | _ => false

def leakyBlock : Block S → Bool
  | .nil => false
  | .cons s b => leaky s || leakyBlock b
end

mutual
/-- A statement inside a state whose rewriting is right: loops in it have no `break` and `continue`,
an `else` does not follow a branch that is a `break` or `continue` without braces, and such a branch
is the last thing in the braces around it. -/
def Tame : Stmt S → Prop
  | .expr _ | .brk | .cont => True
  | .ifThen _ s => Tame s
  | .ifElse _ s t => loose s = false ∧ Tame s ∧ Tame t
  | .block b => TameBlock b
  | .loop _ s => needsRewrite s = false

def TameBlock : Block S → Prop
  | .nil => True
  | .cons s b => Tame s ∧ TameBlock b ∧ (leaky s = true → b = .nil)
end

/-- The state that a statement leaves: the one of a `break` or `continue`, or the one before. -/
def jump (T k : ℕ) : Outcome → ℕ
  | .normal => k
  | .brk => T
  | .cont => T - 1

/-- The assignment of the guard after a statement, if it has left the braces. -/
def looseGuard (b : Bool) : Block (Config S) := if b then .cons (setGuard true) .nil else .nil

theorem looseGuard_exec (b : Bool) (τ : Config S) :
    (looseGuard b).Exec τ .normal { τ with breakGuard := b || τ.breakGuard } := by
  cases b with
  | false => exact ⟨rfl, rfl⟩
  | true => exact .cons ⟨rfl, rfl⟩ ⟨rfl, rfl⟩

/-- The code `l` of the statement `R` jumps and sets the guard for `break` and `continue`; otherwise
it sets the guard only if it is leaky. -/
def Rewritten (T : ℕ) (leak : Bool) (R : S → Outcome → S → Prop) (l : Block (Config S)) : Prop :=
  ∀ σ o σ' k, R σ o σ' → ∃ g, l.Exec ⟨σ, k, false⟩ .normal ⟨σ', jump T k o, g⟩ ∧
    (o ≠ .normal → g = true) ∧ (o = .normal → leak = false → g = false)

theorem loose_eq_false : (s : Stmt S) → needsRewrite s = false → loose s = false
  | .expr _, _ | .block _, _ => rfl
  | .ifThen _ s, h => loose_eq_false s h
  | .ifElse _ _ t, h => loose_eq_false t (Bool.or_eq_false_iff.1 h).2
  | .loop _ s, h => loose_eq_false s h

mutual
theorem leaky_eq_false : (s : Stmt S) → needsRewrite s = false → leaky s = false
  | .expr _, _ | .loop .., _ => rfl
  | .ifThen _ s, h => by rw [leaky, loose_eq_false s h, leaky_eq_false s h, Bool.or_false]
  | .ifElse _ s t, h => by
    obtain ⟨hs, ht⟩ := Bool.or_eq_false_iff.1 h
    rw [leaky, loose_eq_false t ht, leaky_eq_false s hs, leaky_eq_false t ht]
    rfl
  | .block b, h => leakyBlock_eq_false b h

theorem leakyBlock_eq_false : (b : Block S) → needsRewriteBlock b = false → leakyBlock b = false
  | .nil, _ => rfl
  | .cons s b, h => by
    obtain ⟨hs, hb⟩ := Bool.or_eq_false_iff.1 h
    rw [leakyBlock, leaky_eq_false s hs, leakyBlock_eq_false b hb, Bool.or_false]
end

variable {T : ℕ} {s : Stmt S}

theorem Rewritten.lift (hs : needsRewrite s = false) :
    Rewritten T (leaky s) s.Exec (.cons (s.lift storeLens) .nil) := by
  intro σ o σ' k h
  cases outcome_normal s hs h
  exact ⟨false, .cons (Stmt.Exec.lift (L := storeLens) ⟨σ, k, false⟩ s h) ⟨rfl, rfl⟩,
    fun h => absurd rfl h, fun _ _ => rfl⟩

theorem Rewritten.ifThen {c : S → Bool} {a : Stmt (Config S)}
    (h : Rewritten T (leaky s) s.Exec (.cons a (looseGuard (loose s)))) :
    Rewritten T (leaky (.ifThen c s)) (Stmt.ifThen c s).Exec
      (.cons (.ifThen (storeLens.liftCond c) a) (looseGuard (loose s))) := by
  intro σ o σ' k hexec
  unfold Stmt.Exec at hexec
  split at hexec
  · next hc =>
    obtain ⟨g, hl, hbrk, hleak⟩ := h σ o σ' k hexec
    obtain ⟨τ, ha, hrest⟩ := hl.cons_normal
    refine ⟨g, .cons ?_ hrest, hbrk, fun ho hl => hleak ho (Bool.or_eq_false_iff.1 hl).2⟩
    exact (if_pos hc).mpr ha
  · next hc =>
    -- the branch is not taken, but the guard outside of the braces is set
    obtain ⟨rfl, rfl⟩ := hexec
    refine ⟨loose s, .cons ((if_neg hc).mpr ⟨rfl, rfl⟩) ?_, fun ho => absurd rfl ho,
      fun _ hl => (Bool.or_eq_false_iff.1 hl).1⟩
    have := looseGuard_exec (loose s) (⟨σ', k, false⟩ : Config S)
    rwa [Bool.or_false] at this

theorem Rewritten.ifElse {c : S → Bool} {s t : Stmt S} {a b : Stmt (Config S)}
    (hs : Rewritten T (leaky s) s.Exec (.cons a .nil))
    (ht : Rewritten T (leaky t) t.Exec (.cons b (looseGuard (loose t)))) :
    Rewritten T (leaky (.ifElse c s t)) (Stmt.ifElse c s t).Exec
      (.cons (.ifElse (storeLens.liftCond c) a b) (looseGuard (loose t))) := by
  have hleaky : leaky (.ifElse c s t) = false →
      loose t = false ∧ leaky s = false ∧ leaky t = false := by
    intro h
    rw [leaky, Bool.or_eq_false_iff, Bool.or_eq_false_iff] at h
    exact ⟨h.1.1, h.1.2, h.2⟩
  intro σ o σ' k hexec
  unfold Stmt.Exec at hexec
  split at hexec
  · next hc =>
    obtain ⟨g, hl, hbrk, hleak⟩ := hs σ o σ' k hexec
    obtain ⟨τ, ha, -, rfl⟩ := hl.cons_normal
    refine ⟨loose t || g, .cons ((if_pos hc).mpr ha) (looseGuard_exec (loose t) _), fun ho => ?_,
      fun ho hl => ?_⟩
    · rw [hbrk ho, Bool.or_true]
    · obtain ⟨h₁, h₂, -⟩ := hleaky hl
      rw [h₁, hleak ho h₂, Bool.or_false]
  · next hc =>
    obtain ⟨g, hl, hbrk, hleak⟩ := ht σ o σ' k hexec
    obtain ⟨τ, hb, hrest⟩ := hl.cons_normal
    exact ⟨g, .cons ((if_neg hc).mpr hb) hrest, hbrk, fun ho hl => hleak ho (hleaky hl).2.2⟩

theorem guarded_true {b : Block (Config S)} {τ τ' : Config S} (hg : τ.breakGuard = false)
    (h : b.Exec τ .normal τ') : (guarded b).Exec τ .normal τ' :=
  .cons (.ifThen_true (Bool.not_eq_eq_eq_not.2 hg) h) (.nil τ')

theorem guarded_false {b : Block (Config S)} {τ : Config S} (hg : τ.breakGuard = true) :
    (guarded b).Exec τ .normal τ :=
  .cons (.ifThen_false (Bool.not_eq_eq_eq_not.2 hg)) (.nil τ)

section
variable {b : Block S} {l b' : Block (Config S)} (hs : Rewritten T (leaky s) s.Exec l)
include hs

/-- A statement that is the last one. -/
theorem Rewritten.last :
    Rewritten T (leakyBlock (.cons s .nil)) (Block.cons s .nil).Exec (l ++ .nil) := by
  intro σ o σ' k hexec
  have h₁ : s.Exec σ o σ' := by
    rcases hexec with ⟨σ₁, h₁, rfl, rfl⟩ | ⟨-, h₁⟩
    · exact h₁
    · exact h₁
  obtain ⟨g, hl, hbrk, hleak⟩ := hs σ o σ' k h₁
  exact ⟨g, .append (.nil _) l hl, hbrk, fun ho hl => hleak ho (Bool.or_eq_false_iff.1 hl).1⟩

variable (hb : Rewritten T (leakyBlock b) b.Exec b')
include hb

/-- A statement without `break` and `continue`, and what follows it. -/
theorem Rewritten.cons (hno : needsRewrite s = false) :
    Rewritten T (leakyBlock (.cons s b)) (Block.cons s b).Exec (l ++ b') := by
  intro σ o σ' k hexec
  rcases hexec with ⟨σ₁, h₁, h₂⟩ | ⟨ho, h₁⟩
  · obtain ⟨g, hl, -, hleak⟩ := hs σ .normal σ₁ k h₁
    rw [hleak rfl (leaky_eq_false s hno)] at hl
    obtain ⟨g', hl', hbrk, hleak'⟩ := hb σ₁ o σ' k h₂
    exact ⟨g', .append hl' l hl, hbrk, fun ho hl => hleak' ho (Bool.or_eq_false_iff.1 hl).2⟩
  · exact absurd (outcome_normal s hno h₁) ho

/-- A statement with a `break` or `continue`, and what follows it under the guard. -/
theorem Rewritten.cons_guarded (hleaky : leaky s = false) :
    Rewritten T (leakyBlock (.cons s b)) (Block.cons s b).Exec (l ++ guarded b') := by
  intro σ o σ' k hexec
  rcases hexec with ⟨σ₁, h₁, h₂⟩ | ⟨ho, h₁⟩
  · obtain ⟨g, hl, -, hleak⟩ := hs σ .normal σ₁ k h₁
    rw [hleak rfl hleaky] at hl
    obtain ⟨g', hl', hbrk, hleak'⟩ := hb σ₁ o σ' k h₂
    exact ⟨g', .append (guarded_true rfl hl') l hl, hbrk,
      fun ho hl => hleak' ho (Bool.or_eq_false_iff.1 hl).2⟩
  · obtain ⟨g, hl, hbrk, -⟩ := hs σ o σ' k h₁
    rw [hbrk ho] at hl
    exact ⟨true, .append (guarded_false rfl) l hl, fun _ => rfl, fun h => absurd h ho⟩

end

mutual
/-- The rewriting of a tame statement is right. -/
theorem Tame.rewritten (T : ℕ) : (s : Stmt S) → Tame s →
    ∃ a, doRewrite T s = some (.cons a (looseGuard (loose s))) ∧
      Rewritten T (leaky s) s.Exec (.cons a (looseGuard (loose s)))
  | .expr f, _ => ⟨_, rfl, Rewritten.lift (s := .expr f) rfl⟩
  | .ifThen c s, hs => by
    obtain ⟨a, ha, hrew⟩ := Tame.rewritten T s hs
    refine ⟨.ifThen (storeLens.liftCond c) a, ?_, hrew.ifThen⟩
    rw [doRewrite, ha]
    rfl
  | .ifElse c s t, ⟨hloose, hs, ht⟩ => by
    obtain ⟨a, ha, hrew⟩ := Tame.rewritten T s hs
    obtain ⟨b, hb, hrew'⟩ := Tame.rewritten T t ht
    rw [hloose] at ha hrew
    refine ⟨.ifElse (storeLens.liftCond c) a b, ?_, hrew.ifElse hrew'⟩
    rw [doRewrite, ha, hb]
    rfl
  | .block b, hb => by
    obtain ⟨b', hb', hrew⟩ := TameBlock.rewritten T b hb
    refine ⟨.block b', ?_, fun σ o σ' k h => ?_⟩
    · rw [doRewrite, hb']
      rfl
    · obtain ⟨g, hl, hbrk, hleak⟩ := hrew σ o σ' k h
      exact ⟨g, .cons hl ⟨rfl, rfl⟩, hbrk, hleak⟩
  | .loop head s, hs => by
    have hno : needsRewrite (.loop head s) = false := hs
    rw [loose_eq_false _ hno]
    exact ⟨_, doRewrite_eq_lift T _ hno, Rewritten.lift hno⟩
  | .brk, _ => by
    refine ⟨setState T, rfl, fun σ o σ' k h => ?_⟩
    obtain ⟨rfl, rfl⟩ := h
    exact ⟨true, .cons ⟨rfl, rfl⟩ (.cons ⟨rfl, rfl⟩ ⟨rfl, rfl⟩), fun _ => rfl, nofun⟩
  | .cont, _ => by
    refine ⟨setState (T - 1), rfl, fun σ o σ' k h => ?_⟩
    obtain ⟨rfl, rfl⟩ := h
    exact ⟨true, .cons ⟨rfl, rfl⟩ (.cons ⟨rfl, rfl⟩ ⟨rfl, rfl⟩), fun _ => rfl, nofun⟩

theorem TameBlock.rewritten (T : ℕ) : (b : Block S) → TameBlock b →
    ∃ b', doRewriteBlock T b = some b' ∧ Rewritten T (leakyBlock b) b.Exec b'
  | .nil, _ => by
    refine ⟨.nil, rfl, fun σ o σ' k h => ?_⟩
    obtain ⟨rfl, rfl⟩ := h
    exact ⟨false, ⟨rfl, rfl⟩, fun h => absurd rfl h, fun _ _ => rfl⟩
  | .cons s .nil, ⟨hs, _, _⟩ => by
    obtain ⟨a, ha, hrew⟩ := Tame.rewritten T s hs
    refine ⟨_, ?_, hrew.last⟩
    rw [doRewriteBlock, ha]
    simp only [isNil, Bool.not_true, Bool.and_false]
    rfl
  | .cons s (.cons t b), ⟨hs, hb, hleak⟩ => by
    obtain ⟨a, ha, hrew⟩ := Tame.rewritten T s hs
    obtain ⟨b', hb', hrew'⟩ := TameBlock.rewritten T (.cons t b) hb
    rw [doRewriteBlock, ha, hb']
    cases hno : needsRewrite s with
    | false => exact ⟨_, rfl, hrew.cons hrew' hno⟩
    | true =>
      have hleaky : leaky s = false := by
        cases h : leaky s with
        | false => rfl
        | true => cases hleak h
      exact ⟨_, rfl, hrew.cons_guarded hrew' hleaky⟩
end

end Pequin.Flatten
