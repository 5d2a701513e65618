import Mathlib.Logic.Basic

/-!
# Structured programs with `break` and `continue`

Statements over an arbitrary type of stores, with a semantics that gives the outcome of a statement:
it ends, or it leaves the loop around it by `break` or `continue`. The three loops of C are one
statement with three kinds of heads.

A program can be read as one over larger stores that leaves the rest of the store alone
(`Stmt.lift`).
-/

namespace Structured

variable {S : Type}

inductive Outcome where
  | normal
  | brk
  | cont
  deriving DecidableEq, Repr

/-- What a loop has next to its body. A clause of a `for` loop may be empty. -/
inductive LoopHead (S : Type) where
  | while_ (c : S → Bool)
  | do_ (c : S → Bool)
  | for_ (init : Option (S → S)) (c : Option (S → Bool)) (inc : Option (S → S))

namespace LoopHead

def init : LoopHead S → S → S
  | while_ _ | do_ _ => id
  | for_ init _ _ => init.getD id

/-- The condition is tested before the first iteration. -/
def testFirst : LoopHead S → Bool
  | while_ _ | for_ .. => true
  | do_ _ => false

def cond : LoopHead S → S → Bool
  | while_ c | do_ c => c
  | for_ _ c _ => c.getD fun _ => true

def inc : LoopHead S → S → S
  | while_ _ | do_ _ => id
  | for_ _ _ inc => inc.getD id

/-- No clause is empty. -/
def complete : LoopHead S → Bool
  | while_ _ | do_ _ => true
  | for_ init c inc => init.isSome && c.isSome && inc.isSome

end LoopHead

mutual
inductive Stmt (S : Type) where
  | expr (f : S → S)
  | ifThen (c : S → Bool) (s : Stmt S)
  | ifElse (c : S → Bool) (s t : Stmt S)
  | block (b : Block S)
  | loop (head : LoopHead S) (s : Stmt S)
  | brk
  | cont

inductive Block (S : Type) where
  | nil
  | cons (s : Stmt S) (b : Block S)
end

namespace Stmt

def while_ (c : S → Bool) (s : Stmt S) : Stmt S := .loop (.while_ c) s

def do_ (s : Stmt S) (c : S → Bool) : Stmt S := .loop (.do_ c) s

end Stmt

/-! ## Semantics -/

/-- The iterations of a loop with the body `R`. After the first one it is a loop that starts with
`inc` and a test. -/
inductive LoopRuns (R : S → Outcome → S → Prop) (c : S → Bool) (inc : S → S) :
    (S → S) → Bool → S → S → Prop where
  | done {init σ} (h : c (init σ) = false) : LoopRuns R c inc init true σ (init σ)
  | brk {init testFirst σ σ'} (h : testFirst = true → c (init σ) = true)
      (hs : R (init σ) .brk σ') : LoopRuns R c inc init testFirst σ σ'
  | step {init testFirst σ o σ₁ σ'} (h : testFirst = true → c (init σ) = true)
      (hs : R (init σ) o σ₁) (ho : o ≠ .brk) (hrest : LoopRuns R c inc inc true σ₁ σ') :
      LoopRuns R c inc init testFirst σ σ'

mutual
/-- The statement, started in `σ`, has the outcome `o` and ends in `σ'`. -/
def Stmt.Exec : Stmt S → S → Outcome → S → Prop
  | .expr f, σ, o, σ' => o = .normal ∧ σ' = f σ
  | .ifThen c s, σ, o, σ' => if c σ then s.Exec σ o σ' else o = .normal ∧ σ' = σ
  | .ifElse c s t, σ, o, σ' => if c σ then s.Exec σ o σ' else t.Exec σ o σ'
  | .block b, σ, o, σ' => b.Exec σ o σ'
  | .loop head s, σ, o, σ' =>
    o = .normal ∧ LoopRuns s.Exec head.cond head.inc head.init head.testFirst σ σ'
  | .brk, σ, o, σ' => o = .brk ∧ σ' = σ
  | .cont, σ, o, σ' => o = .cont ∧ σ' = σ

def Block.Exec : Block S → S → Outcome → S → Prop
  | .nil, σ, o, σ' => o = .normal ∧ σ' = σ
  | .cons s b, σ, o, σ' =>
    (∃ σ₁, s.Exec σ .normal σ₁ ∧ b.Exec σ₁ o σ') ∨ (o ≠ .normal ∧ s.Exec σ o σ')
end

/-! ## A program has one result -/

variable {c : S → Bool}

theorem LoopRuns.det {R : S → Outcome → S → Prop} {inc : S → S}
    (hR : ∀ σ o σ' o' σ'', R σ o σ' → R σ o' σ'' → o = o' ∧ σ' = σ'') {init : S → S}
    {testFirst : Bool} {σ σ' σ'' : S} (h : LoopRuns R c inc init testFirst σ σ')
    (h' : LoopRuns R c inc init testFirst σ σ'') : σ' = σ'' := by
  induction h generalizing σ'' with
  | done hc =>
    cases h' with
    | done => rfl
    | brk h => exact absurd (hc.symm.trans (h rfl)) Bool.false_ne_true
    | step h => exact absurd (hc.symm.trans (h rfl)) Bool.false_ne_true
  | brk hc hs =>
    cases h' with
    | done h => exact absurd (h.symm.trans (hc rfl)) Bool.false_ne_true
    | brk _ hs' => exact (hR _ _ _ _ _ hs hs').2
    | step _ hs' ho => exact absurd (hR _ _ _ _ _ hs hs').1.symm ho
  | step hc hs ho _ ih =>
    cases h' with
    | done h => exact absurd (h.symm.trans (hc rfl)) Bool.false_ne_true
    | brk _ hs' => exact absurd (hR _ _ _ _ _ hs hs').1 ho
    | step _ hs' _ hrest' =>
      obtain ⟨_, rfl⟩ := hR _ _ _ _ _ hs hs'
      exact ih hrest'

mutual
theorem Stmt.Exec.det : (s : Stmt S) → {σ : S} → {o o' : Outcome} → {σ' σ'' : S} →
    s.Exec σ o σ' → s.Exec σ o' σ'' → o = o' ∧ σ' = σ''
  | .expr f, _, _, _, _, _, ⟨ho, hσ⟩, ⟨ho', hσ'⟩ => ⟨ho.trans ho'.symm, hσ.trans hσ'.symm⟩
  | .ifThen c s, σ, _, _, _, _, h, h' => by
    unfold Stmt.Exec at h h'
    split at h
    · exact Stmt.Exec.det s h (by simpa [*] using h')
    · next hc =>
      rw [if_neg hc] at h'
      exact ⟨h.1.trans h'.1.symm, h.2.trans h'.2.symm⟩
  | .ifElse c s t, σ, _, _, _, _, h, h' => by
    unfold Stmt.Exec at h h'
    split at h
    · next hc =>
      rw [if_pos hc] at h'
      exact Stmt.Exec.det s h h'
    · next hc =>
      rw [if_neg hc] at h'
      exact Stmt.Exec.det t h h'
  | .block b, _, _, _, _, _, h, h' => Block.Exec.det b h h'
  | .loop head s, _, _, _, _, _, ⟨ho, h⟩, ⟨ho', h'⟩ =>
    ⟨ho.trans ho'.symm, LoopRuns.det (R := s.Exec) (fun _ _ _ _ _ => Stmt.Exec.det s) h h'⟩
  | .brk, _, _, _, _, _, ⟨ho, hσ⟩, ⟨ho', hσ'⟩ => ⟨ho.trans ho'.symm, hσ.trans hσ'.symm⟩
  | .cont, _, _, _, _, _, ⟨ho, hσ⟩, ⟨ho', hσ'⟩ => ⟨ho.trans ho'.symm, hσ.trans hσ'.symm⟩

theorem Block.Exec.det : (b : Block S) → {σ : S} → {o o' : Outcome} → {σ' σ'' : S} →
    b.Exec σ o σ' → b.Exec σ o' σ'' → o = o' ∧ σ' = σ''
  | .nil, _, _, _, _, _, ⟨ho, hσ⟩, ⟨ho', hσ'⟩ => ⟨ho.trans ho'.symm, hσ.trans hσ'.symm⟩
  | .cons s b, _, _, _, _, _, .inl ⟨_, hs, hb⟩, .inl ⟨_, hs', hb'⟩ => by
    obtain ⟨_, rfl⟩ := Stmt.Exec.det s hs hs'
    exact Block.Exec.det b hb hb'
  | .cons s _, _, _, _, _, _, .inl ⟨_, hs, _⟩, .inr ⟨ho', hs'⟩ =>
    absurd (Stmt.Exec.det s hs hs').1.symm ho'
  | .cons s _, _, _, _, _, _, .inr ⟨ho, hs⟩, .inl ⟨_, hs', _⟩ =>
    absurd (Stmt.Exec.det s hs hs').1 ho
  | .cons s _, _, _, _, _, _, .inr ⟨_, hs⟩, .inr ⟨_, hs'⟩ => Stmt.Exec.det s hs hs'
end

/-! ## Concatenation -/

def Block.append : Block S → Block S → Block S
  | .nil, b' => b'
  | .cons s b, b' => .cons s (b.append b')

instance : Append (Block S) := ⟨Block.append⟩

theorem Block.append_assoc : (b b' b'' : Block S) → b ++ b' ++ b'' = b ++ (b' ++ b'')
  | .nil, _, _ => rfl
  | .cons s b, b', b'' => congrArg (Block.cons s) (Block.append_assoc b b' b'')

variable {s : Stmt S} {σ σ' : S} {o : Outcome}

theorem Stmt.Exec.ifThen_true (hc : c σ = true) (h : s.Exec σ o σ') :
    (Stmt.ifThen c s).Exec σ o σ' := (if_pos hc).mpr h

theorem Stmt.Exec.ifThen_false {σ : S} (hc : c σ = false) :
    (Stmt.ifThen c s).Exec σ .normal σ := (if_neg (hc ▸ Bool.false_ne_true)).mpr ⟨rfl, rfl⟩

theorem Stmt.Exec.ifElse_true {s t : Stmt S} (hc : c σ = true) (h : s.Exec σ o σ') :
    (Stmt.ifElse c s t).Exec σ o σ' := (if_pos hc).mpr h

theorem Stmt.Exec.ifElse_false {s t : Stmt S} (hc : c σ = false) (h : t.Exec σ o σ') :
    (Stmt.ifElse c s t).Exec σ o σ' :=
  (if_neg (hc ▸ Bool.false_ne_true)).mpr h

theorem Block.Exec.nil (σ : S) : Block.nil.Exec σ .normal σ := ⟨rfl, rfl⟩

theorem Block.Exec.cons {b : Block S} {σ σ₁ σ' : S} (hs : s.Exec σ .normal σ₁)
    (hb : b.Exec σ₁ o σ') : (Block.cons s b).Exec σ o σ' :=
  .inl ⟨σ₁, hs, hb⟩

theorem Block.Exec.cons_normal {b : Block S} (h : (Block.cons s b).Exec σ .normal σ') :
    ∃ σ₁, s.Exec σ .normal σ₁ ∧ b.Exec σ₁ .normal σ' :=
  h.resolve_right fun h => h.1 rfl

theorem Block.Exec.append {b' : Block S} {σ₁ σ' : S} (h' : b'.Exec σ₁ o σ') :
    (b : Block S) → {σ : S} → b.Exec σ .normal σ₁ → (b ++ b').Exec σ o σ'
  | .nil, _, ⟨_, h⟩ => h ▸ h'
  | .cons _ b, _, .inl ⟨σ₂, hs, hb⟩ => .inl ⟨σ₂, hs, Block.Exec.append h' b hb⟩
  | .cons _ _, _, .inr ⟨ho, _⟩ => absurd rfl ho

/-! ## Larger stores -/

/-- A store that is a part of a larger one. -/
structure Lens (S T : Type) where
  get : T → S
  set : T → S → T
  get_set : ∀ τ σ, get (set τ σ) = σ
  set_get : ∀ τ, set τ (get τ) = τ
  set_set : ∀ τ σ σ', set (set τ σ) σ' = set τ σ'

variable {T : Type} (L : Lens S T)

def Lens.liftFun (f : S → S) (τ : T) : T := L.set τ (f (L.get τ))

def Lens.liftCond (c : S → Bool) (τ : T) : Bool := c (L.get τ)

def LoopHead.lift : LoopHead S → LoopHead T
  | while_ c => while_ (L.liftCond c)
  | do_ c => do_ (L.liftCond c)
  | for_ init c inc => for_ (init.map L.liftFun) (c.map L.liftCond) (inc.map L.liftFun)

mutual
def Stmt.lift : Stmt S → Stmt T
  | .expr f => .expr (L.liftFun f)
  | .ifThen c s => .ifThen (L.liftCond c) s.lift
  | .ifElse c s t => .ifElse (L.liftCond c) s.lift t.lift
  | .block b => .block b.lift
  | .loop head s => .loop (head.lift L) s.lift
  | .brk => .brk
  | .cont => .cont

def Block.lift : Block S → Block T
  | .nil => .nil
  | .cons s b => .cons s.lift b.lift
end

theorem Lens.liftFun_id : L.liftFun id = id := funext L.set_get

theorem LoopHead.lift_eq (head : LoopHead S) : (head.lift L).cond = L.liftCond head.cond ∧
    (head.lift L).inc = L.liftFun head.inc ∧ (head.lift L).init = L.liftFun head.init ∧
      (head.lift L).testFirst = head.testFirst := by
  have hid := L.liftFun_id.symm
  have hfun (f : Option (S → S)) : (f.map L.liftFun).getD id = L.liftFun (f.getD id) := by
    cases f with
    | none => exact hid
    | some f => rfl
  cases head with
  | while_ c => exact ⟨rfl, hid, hid, rfl⟩
  | do_ c => exact ⟨rfl, hid, hid, rfl⟩
  | for_ init c inc => cases c <;> exact ⟨rfl, hfun inc, hfun init, rfl⟩

variable {L}

theorem LoopRuns.lift {R : S → Outcome → S → Prop} {R' : T → Outcome → T → Prop}
    (hR : ∀ τ σ o σ', R σ o σ' → R' (L.set τ σ) o (L.set τ σ')) {inc init : S → S}
    {testFirst : Bool} (h : LoopRuns R c inc init testFirst σ σ') (τ : T) :
    LoopRuns R' (L.liftCond c) (L.liftFun inc) (L.liftFun init) testFirst (L.set τ σ)
      (L.set τ σ') := by
  have hf : ∀ (f : S → S) σ, L.liftFun f (L.set τ σ) = L.set τ (f σ) := by
    intro f σ
    rw [Lens.liftFun, L.get_set, L.set_set]
  have hc : ∀ σ, L.liftCond c (L.set τ σ) = c σ := fun σ => congrArg c (L.get_set τ σ)
  induction h with
  | @done init σ h =>
    rw [← hf init σ]
    exact .done (by rw [hf, hc, h])
  | @brk init testFirst σ σ' h hs =>
    refine .brk (fun ht => ?_) ?_
    · rw [hf, hc, h ht]
    · rw [hf]
      exact hR τ _ _ _ hs
  | @step init testFirst σ o σ₁ σ' h hs ho _ ih =>
    refine .step (fun ht => ?_) ?_ ho ih
    · rw [hf, hc, h ht]
    · rw [hf]
      exact hR τ _ _ _ hs

mutual
/-- The lifted program leaves the rest of the store alone. -/
theorem Stmt.Exec.lift (τ : T) : (s : Stmt S) → {σ : S} → {o : Outcome} → {σ' : S} →
    s.Exec σ o σ' → (s.lift L).Exec (L.set τ σ) o (L.set τ σ')
  | .expr f, _, _, _, ⟨ho, hσ⟩ => by
    refine ⟨ho, ?_⟩
    rw [Lens.liftFun, L.get_set, L.set_set, hσ]
  | .ifThen c s, σ, o, σ', h => by
    unfold Stmt.Exec at h
    rw [Stmt.lift, Stmt.Exec, Lens.liftCond, L.get_set]
    split
    · next hc =>
      rw [if_pos hc] at h
      exact Stmt.Exec.lift τ s h
    · next hc =>
      rw [if_neg hc] at h
      exact ⟨h.1, by rw [h.2]⟩
  | .ifElse c s t, σ, o, σ', h => by
    unfold Stmt.Exec at h
    rw [Stmt.lift, Stmt.Exec, Lens.liftCond, L.get_set]
    split
    · next hc =>
      rw [if_pos hc] at h
      exact Stmt.Exec.lift τ s h
    · next hc =>
      rw [if_neg hc] at h
      exact Stmt.Exec.lift τ t h
  | .block b, _, _, _, h => Block.Exec.lift τ b h
  | .loop head s, σ, o, σ', ⟨ho, h⟩ => by
    obtain ⟨hcond, hinc, hinit, htest⟩ := head.lift_eq L
    rw [Stmt.lift, Stmt.Exec, hcond, hinc, hinit, htest]
    exact ⟨ho, h.lift (fun τ _ _ _ => Stmt.Exec.lift τ s) τ⟩
  | .brk, _, _, _, ⟨ho, hσ⟩ => ⟨ho, by rw [hσ]⟩
  | .cont, _, _, _, ⟨ho, hσ⟩ => ⟨ho, by rw [hσ]⟩

theorem Block.Exec.lift (τ : T) : (b : Block S) → {σ : S} → {o : Outcome} → {σ' : S} →
    b.Exec σ o σ' → (b.lift L).Exec (L.set τ σ) o (L.set τ σ')
  | .nil, _, _, _, ⟨ho, hσ⟩ => ⟨ho, by rw [hσ]⟩
  | .cons s b, _, _, _, .inl ⟨_, hs, hb⟩ =>
    .inl ⟨_, Stmt.Exec.lift τ s hs, Block.Exec.lift τ b hb⟩
  | .cons s _, _, _, _, .inr ⟨ho, hs⟩ => .inr ⟨ho, Stmt.Exec.lift τ s hs⟩
end

end Structured
