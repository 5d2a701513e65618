import Pequin.Flatten.States

/-!
# Flattening preserves the meaning of a loop

Where the statements inside the states are tame, every run of a loop is a run of its states: a
statement that ends normally gets from its first state to the one after its last, `continue` gets to
the target state of the loop around it, and `break` to the state after that. The machine then gets
to its final state with the same values of the variables, if it has enough iterations.
-/

namespace Pequin.Flatten

open Structured FallThrough

variable {S : Type}

mutual
/-- No loop with states has an empty clause, and all statements inside states are tame. -/
def Tamed : Stmt S → Prop
  | .loop head s => head.complete = true ∧ Tamed s
  | .block b => TamedBlock b
  | s => Tame s

def TamedBlock : Block S → Prop
  | .nil => True
  | .cons s b => Tamed s ∧ TamedBlock b
end

/-! ## Runs of states -/

def StateRuns (codes : List (Block (Config S))) (k : ℕ) (τ τ' : Config S) : Prop :=
  ∃ code, codes[k]? = some code ∧ code.Exec τ .normal τ'

/-- The states get from `k` to `k'` and the variables from `σ` to `σ'`, with the guard clear. -/
def Goes (codes : List (Block (Config S))) (σ : S) (k : ℕ) (σ' : S) (k' : ℕ) : Prop :=
  Reaches Config.state (StateRuns codes) codes.length ⟨σ, k, false⟩ ⟨σ', k', false⟩

variable {codes : List (Block (Config S))}

theorem Goes.refl (σ : S) (k : ℕ) : Goes codes σ k σ k := Reaches.refl _

theorem Goes.trans {σ σ₁ σ' : S} {k k₁ k' : ℕ} (h : Goes codes σ k σ₁ k₁)
    (h' : Goes codes σ₁ k₁ σ' k') : Goes codes σ k σ' k' := Reaches.trans h h'

/-- The states of `frag` are those from `k` on. -/
def Placed (codes : List (Block (Config S))) (k : ℕ) (frag : List (Block (Config S))) : Prop :=
  ∃ pre post, codes = pre ++ (frag ++ post) ∧ pre.length = k

variable {k : ℕ}

theorem Placed.left {frag frag' : List (Block (Config S))} (h : Placed codes k (frag ++ frag')) :
    Placed codes k frag := by
  obtain ⟨pre, post, rfl, hk⟩ := h
  exact ⟨pre, frag' ++ post, by simp only [List.append_assoc], hk⟩

theorem Placed.right {frag frag' : List (Block (Config S))} (h : Placed codes k (frag ++ frag')) :
    Placed codes (k + frag.length) frag' := by
  obtain ⟨pre, post, rfl, hk⟩ := h
  exact ⟨pre ++ frag, post, by simp only [List.append_assoc], by rw [List.length_append, hk]⟩

theorem Placed.goes {code : Block (Config S)} (h : Placed codes k [code]) {σ σ' : S} {k' : ℕ}
    (hcode : code.Exec ⟨σ, k, false⟩ .normal ⟨σ', k', false⟩) : Goes codes σ k σ' k' := by
  obtain ⟨pre, post, rfl, rfl⟩ := h
  refine .step (by simp) ⟨code, ?_, hcode⟩
  simp

/-- The state after a statement in a loop with the target state `T`. -/
def exitState (T next : ℕ) : Outcome → ℕ
  | .normal => next
  | .brk => T + 1
  | .cont => T

/-- The states from `k` on do what `R` does. -/
def Simulates (codes : List (Block (Config S))) (T k next : ℕ) (R : S → Outcome →
    S → Prop) : Prop :=
  ∀ σ o σ', R σ o σ' → Goes codes σ k σ' (exitState T next o)

/-! ## Single states -/

theorem stateEnd_exec (clearBreak : Bool) (σ : S) (k : ℕ) (g : Bool)
    (hg : clearBreak = false → g = false) :
    (stateEnd clearBreak).Exec (⟨σ, k, g⟩ : Config S) .normal ⟨σ, k + 1, false⟩ := by
  cases clearBreak with
  | true => exact .cons ⟨rfl, rfl⟩ (.cons ⟨rfl, rfl⟩ ⟨rfl, rfl⟩)
  | false =>
    rw [hg rfl]
    exact .cons ⟨rfl, rfl⟩ ⟨rfl, rfl⟩

variable {T k : ℕ}

theorem jump_succ (hT : 0 < T) (o : Outcome) : jump T k o + 1 = exitState T (k + 1) o := by
  cases o with
  | normal | brk => rfl
  | cont => exact Nat.sub_add_cancel hT

variable {s : Stmt S}

/-- The state of a tame statement: what is open before it, its own code, and the end of the
state. -/
theorem Tame.state (hT : 0 < T) (hs : Tame s) :
    ∃ code, doRewrite T s = some code ∧ ∀ σ o σ', s.Exec σ o σ' →
      (code ++ stateEnd (needsRewrite s)).Exec ⟨σ, k, false⟩ .normal
        ⟨σ', exitState T (k + 1) o, false⟩ := by
  obtain ⟨a, ha, hrew⟩ := Tame.rewritten T s hs
  refine ⟨_, ha, fun σ o σ' h => ?_⟩
  obtain ⟨g, hl, -, hleak⟩ := hrew σ o σ' k h
  rw [← jump_succ hT]
  refine .append (stateEnd_exec _ σ' _ g fun hno => ?_) _ hl
  exact hleak (outcome_normal s hno h) (leaky_eq_false s hno)

/-- The open state of a compound statement gets from `σ₀` to `σ`. -/
def Open (inState : Option (Block (Config S))) (k : ℕ) (σ₀ σ : S) : Prop :=
  match inState with
  | none => σ₀ = σ
  | some code => code.Exec ⟨σ₀, k, false⟩ .normal ⟨σ, k, false⟩

variable {inState : Option (Block (Config S))}

theorem Open.exec {σ₀ σ : S} (h : Open inState k σ₀ σ) :
    (inState.getD .nil).Exec ⟨σ₀, k, false⟩ .normal ⟨σ, k, false⟩ := by
  cases inState with
  | none =>
    cases h
    exact .nil _
  | some code => exact h

theorem Open.close {σ₀ σ : S} (h : Open inState k σ₀ σ) (hp : Placed codes k (closeState inState)) :
    Goes codes σ₀ k σ (k + (closeState inState).length) := by
  cases inState with
  | none =>
    cases h
    exact .refl _ _
  | some code =>
    exact hp.goes (.append (stateEnd_exec false σ k false fun _ => rfl) code h)

/-! ## Loops -/

section
variable {T k : ℕ} {head : LoopHead S} {s : Stmt S}

/-- The iterations of a loop, from the first state of its body on. -/
theorem loopRuns_goes (hlast : Placed codes T [lastState head (k + 1)])
    (hbody : Simulates codes T (k + 1) T s.Exec) {init : S → S} {testFirst : Bool} {σ σ' : S}
    (h : LoopRuns s.Exec head.cond head.inc init testFirst σ σ') :
    (testFirst = true ∧ head.cond (init σ) = false ∧ σ' = init σ) ∨
      ((testFirst = true → head.cond (init σ) = true) ∧
        Goes codes (init σ) (k + 1) σ' (T + 1)) := by
  induction h with
  | done hc => exact .inl ⟨rfl, hc, rfl⟩
  | brk hc hs => exact .inr ⟨hc, hbody _ _ _ hs⟩
  | @step init testFirst σ o σ₁ σ' hc hs ho _ ih =>
    refine .inr ⟨hc, ?_⟩
    have hgoes : Goes codes (init σ) (k + 1) σ₁ T := by
      cases o with
      | normal | cont => exact hbody _ _ _ hs
      | brk => exact absurd rfl ho
    refine hgoes.trans ?_
    rcases ih with ⟨-, hc', rfl⟩ | ⟨hc', hrest⟩
    · exact hlast.goes (.cons ⟨rfl, rfl⟩
        (.cons (Stmt.Exec.ifElse_false hc' ⟨rfl, rfl⟩) ⟨rfl, rfl⟩))
    · have hback : Goes codes σ₁ T (head.inc σ₁) (k + 1) :=
        hlast.goes (.cons ⟨rfl, rfl⟩
          (.cons (Stmt.Exec.ifElse_true (hc' rfl) ⟨rfl, rfl⟩) ⟨rfl, rfl⟩))
      exact hback.trans hrest

/-- The first state of a loop leaves it or enters its body. -/
theorem loop_goes (hfirst : Placed codes k [firstState head (T + 1)])
    (hlast : Placed codes T [lastState head (k + 1)])
    (hbody : Simulates codes T (k + 1) T s.Exec) {T' : ℕ} :
    Simulates codes T' k (T + 1) (Stmt.loop head s).Exec := by
  rintro σ o σ' ⟨rfl, h⟩
  rw [firstState] at hfirst
  rcases loopRuns_goes hlast hbody h with ⟨htest, hc, rfl⟩ | ⟨hc, hrest⟩
  · rw [htest] at hfirst
    exact hfirst.goes (.cons ⟨rfl, rfl⟩
      (.cons (Stmt.Exec.ifElse_false hc ⟨rfl, rfl⟩) ⟨rfl, rfl⟩))
  · refine Goes.trans (hfirst.goes (.cons ⟨rfl, rfl⟩ (.cons ?_ ⟨rfl, rfl⟩))) hrest
    cases htest : head.testFirst with
    | false => exact ⟨rfl, rfl⟩
    | true => exact Stmt.Exec.ifElse_true (hc htest) ⟨rfl, rfl⟩

end

/-! ## Statements with states of their own -/

/-- The states of a statement exist, are as many as counted, and do what the statement does. -/
def Flattens (T k : ℕ) (s : Stmt S) : Prop :=
  ∃ frag, flattenBody T k s = some frag ∧ frag.length = countStates s ∧
    ∀ codes, Placed codes k frag → Simulates codes T k (k + countStates s) s.Exec

/-- The same for the rest of a compound statement, with an open state. -/
def FlattensRest (T k : ℕ) (inState : Option (Block (Config S))) (b : Block S) : Prop :=
  ∃ frag, flattenCompoundStmt T k inState b = some frag ∧
    frag.length = (closeState inState).length + countCompound inState.isSome b ∧
      ∀ codes, Placed codes k frag → ∀ σ₀ σ, Open inState k σ₀ σ → ∀ o σ', b.Exec σ o σ' →
        Goes codes σ₀ k σ' (exitState T (k + frag.length) o)

theorem Flattens.simple (hT : 0 < T) (hflat : isLoopOrCompound s = false) (hs : Tame s) :
    Flattens T k s := by
  obtain ⟨code, hcode, hexec⟩ := hs.state (k := k) hT
  have hbody : flattenBody T k s = some [code ++ stateEnd (needsRewrite s)] := by
    cases s with
    | loop | block => cases hflat
    | expr | ifThen | ifElse | brk | cont =>
      rw [flattenBody, hcode]
      · rfl
      all_goals
        intros
        contradiction
  have hcount : countStates s = 1 := by
    cases s with
    | loop | block => cases hflat
    | expr | ifThen | ifElse | brk | cont => rfl
  refine ⟨_, hbody, hcount.symm, fun codes hp σ o σ' h => ?_⟩
  rw [hcount]
  exact hp.goes (hexec σ o σ' h)

theorem Flattens.loop {head : LoopHead S} (hcomplete : head.complete = true)
    (hs : Flattens (k + (2 + countStates s) - 1) (k + 1) s) : Flattens T k (.loop head s) := by
  obtain ⟨body, hbody, hlen, hsim⟩ := hs
  refine ⟨firstState head (k + (2 + countStates s)) :: (body ++ [lastState head (k + 1)]), ?_, ?_,
    fun codes hp => ?_⟩
  · rw [flattenBody, if_pos hcomplete]
    dsimp only
    rw [hbody]
    rfl
  · rw [List.length_cons, List.length_append, hlen, List.length_singleton, countStates]
    omega
  · have hT : k + (2 + countStates s) - 1 + 1 = k + (2 + countStates s) := by omega
    have hT' : k + 1 + countStates s = k + (2 + countStates s) - 1 := by omega
    rw [← List.singleton_append] at hp
    have hmid := hp.right.left
    have hlast := hp.right.right
    rw [List.length_singleton] at hmid hlast
    rw [hlen, hT'] at hlast
    have hsim' := hsim codes hmid
    rw [hT'] at hsim'
    have hfirst := hp.left
    rw [← hT] at hfirst
    rw [countStates, ← hT]
    exact loop_goes hfirst hlast hsim'

/-- A loop or compound statement closes the open state. -/
theorem FlattensRest.cons_flat {b : Block S} (hflat : isLoopOrCompound s = true)
    (hs : Flattens T (k + (closeState inState).length) s)
    (hb : FlattensRest T (k + (closeState inState).length + countStates s) none b) :
    FlattensRest T k inState (.cons s b) := by
  obtain ⟨states, hstates, hlen, hsim⟩ := hs
  obtain ⟨rest, hrest, hlen', hsim'⟩ := hb
  refine ⟨closeState inState ++ states ++ rest, ?_, ?_, fun codes hp σ₀ σ hopen o σ' h => ?_⟩
  · rw [flattenCompoundStmt, if_pos hflat]
    dsimp only
    rw [hstates]
    simp only [Option.bind_eq_bind, Option.bind_some, hlen, hrest]
  · rw [countCompound, if_pos hflat, List.length_append, List.length_append, hlen, hlen']
    exact (Nat.add_assoc _ _ _).trans (congrArg _ (congrArg _ (Nat.zero_add _)))
  · have hclose := hopen.close hp.left.left
    have hpos : k + (closeState inState ++ states).length =
        k + (closeState inState).length + countStates s := by
      rw [List.length_append, hlen, Nat.add_assoc]
    have hlast := hp.right
    rw [hpos] at hlast
    refine hclose.trans ?_
    rcases h with ⟨σ₁, h₁, h₂⟩ | ⟨ho, h₁⟩
    · have hgoes := (hsim codes hp.left.right σ .normal σ₁ h₁).trans
        (hsim' codes hlast σ₁ σ₁ rfl o σ' h₂)
      rwa [List.length_append, ← Nat.add_assoc, hpos]
    · have hgoes := hsim codes hp.left.right σ o σ' h₁
      cases o with
      | normal => exact absurd rfl ho
      | brk | cont => exact hgoes

/-- A statement with a `break` or `continue` ends the open state. -/
theorem FlattensRest.cons_break (hT : 0 < T) {b : Block S} (hflat : isLoopOrCompound s = false)
    (hbc : needsRewrite s = true) (hs : Tame s) (hb : FlattensRest T (k + 1) none b) :
    FlattensRest T k inState (.cons s b) := by
  obtain ⟨code, hcode, hexec⟩ := hs.state (k := k) hT
  obtain ⟨rest, hrest, hlen, hsim⟩ := hb
  rw [hbc] at hexec
  refine ⟨(inState.getD .nil ++ code ++ stateEnd true) :: rest, ?_, ?_,
    fun codes hp σ₀ σ hopen o σ' h => ?_⟩
  · rw [flattenCompoundStmt, hflat, hcode]
    simp only [Bool.false_eq_true, if_false, Option.bind_eq_bind, Option.bind_some,
      hbc, if_true, hrest]
  · rw [countCompound, hflat, hbc, List.length_cons, hlen]
    refine Eq.trans ?_ (length_closeState inState (countCompound false b)).symm
    exact congrArg (· + 1) (Nat.zero_add _)
  · rw [← List.singleton_append] at hp
    have hstate : ∀ o σ₁, s.Exec σ o σ₁ → Goes codes σ₀ k σ₁ (exitState T (k + 1) o) := by
      intro o σ₁ h₁
      refine hp.left.goes ?_
      rw [Block.append_assoc]
      exact .append (hexec σ o σ₁ h₁) _ hopen.exec
    rcases h with ⟨σ₁, h₁, h₂⟩ | ⟨ho, h₁⟩
    · have hgoes := (hstate .normal σ₁ h₁).trans (hsim codes hp.right σ₁ σ₁ rfl o σ' h₂)
      rwa [List.length_cons, Nat.add_comm rest.length 1, ← Nat.add_assoc]
    · have hgoes := hstate o σ' h₁
      cases o with
      | normal => exact absurd rfl ho
      | brk | cont => exact hgoes

/-- Another statement is added to the open state. -/
theorem FlattensRest.cons_simple {b : Block S} (hflat : isLoopOrCompound s = false)
    (hbc : needsRewrite s = false) (hb : ∀ inState, FlattensRest T k (some inState) b) :
    FlattensRest T k inState (.cons s b) := by
  obtain ⟨frag, hfrag, hlen, hsim⟩ :=
    hb (inState.getD .nil ++ .cons (s.lift storeLens) .nil)
  refine ⟨frag, ?_, ?_, fun codes hp σ₀ σ hopen o σ' h => ?_⟩
  · rw [flattenCompoundStmt, hflat, doRewrite_eq_lift T s hbc]
    simp only [Bool.false_eq_true, if_false, Option.bind_eq_bind, Option.bind_some, hbc, hfrag]
  · rw [countCompound, hflat, hbc, hlen]
    refine Eq.trans ?_ (length_closeState inState (countCompound true b)).symm
    exact Nat.add_comm 1 _
  · rcases h with ⟨σ₁, h₁, h₂⟩ | ⟨ho, h₁⟩
    · refine hsim codes hp σ₀ σ₁ (Block.Exec.append ?_ _ hopen.exec) o σ' h₂
      exact .cons (Stmt.Exec.lift (L := storeLens) ⟨σ, k, false⟩ s h₁) (.nil _)
    · exact absurd (outcome_normal s hbc h₁) ho

mutual
theorem Tamed.flattens : (s : Stmt S) → Tamed s → (T k : ℕ) → 0 < T → Flattens T k s
  | .loop _ s, ⟨hcomplete, hs⟩, T, k, _ =>
    .loop hcomplete (Tamed.flattens s hs _ _ (by omega))
  | .block b, hb, T, k, hT => by
    obtain ⟨frag, hfrag, hlen, hsim⟩ := TamedBlock.flattens b hb T k hT none
    have hlen' : frag.length = countStates (.block b) := hlen.trans (Nat.zero_add _)
    refine ⟨frag, hfrag, hlen', fun codes hp σ o σ' h => ?_⟩
    rw [← hlen']
    exact hsim codes hp σ σ rfl o σ' h
  | .expr _, hs, _, _, hT | .ifThen _ _, hs, _, _, hT | .ifElse _ _ _, hs, _, _, hT
  | .brk, hs, _, _, hT | .cont, hs, _, _, hT => .simple hT rfl hs

theorem TamedBlock.flattens : (b : Block S) → TamedBlock b → (T k : ℕ) → 0 < T →
    (inState : Option (Block (Config S))) → FlattensRest T k inState b
  | .nil, _, T, k, _, inState => by
    refine ⟨closeState inState, rfl, rfl, fun codes hp σ₀ σ hopen o σ' h => ?_⟩
    obtain ⟨rfl, rfl⟩ := h
    exact hopen.close hp
  | .cons s b, ⟨hs, hb⟩, T, k, hT, inState => by
    have hrest := TamedBlock.flattens b hb T
    have hflattens := Tamed.flattens s hs T
    cases hflat : isLoopOrCompound s with
    | true => exact .cons_flat hflat (hflattens _ hT) (hrest _ hT none)
    | false =>
      cases hbc : needsRewrite s with
      | false => exact .cons_simple hflat hbc fun code => hrest k hT (some code)
      | true =>
        have htame : Tame s := by
          cases s with
          | loop | block => cases hflat
          | expr | ifThen | ifElse | brk | cont => exact hs
        exact .cons_break hT hflat hbc htame (hrest _ hT none)
end

/-! ## The machine -/

theorem tests_exec {codes : List (Block (Config S))} (pre : List (Block (Config S)))
    {suf : List (Block (Config S))} (hcodes : codes = pre ++ suf) (hk : pre.length = k)
    {τ τ' : Config S} (h : Pass Config.state (StateRuns codes) k suf.length τ τ') :
    (tests k suf).Exec τ .normal τ' := by
  induction suf generalizing pre k τ with
  | nil =>
    cases h
    exact .nil τ'
  | cons code suf ih =>
    have hcodes' : codes = (pre ++ [code]) ++ suf := by
      rw [hcodes, List.append_assoc, List.singleton_append]
    have hk' : (pre ++ [code]).length = k + 1 := by
      rw [List.length_append, hk, List.length_singleton]
    rw [List.length_cons, Pass] at h
    split at h
    · next hpc =>
      obtain ⟨τ₁, ⟨code', hcode', hexec⟩, hrest⟩ := h
      rw [hcodes, ← hk, List.getElem?_append_right (Nat.le_refl _), Nat.sub_self] at hcode'
      cases hcode'
      exact .cons (.ifThen_true (beq_iff_eq.2 hpc) hexec) (ih (pre ++ [code]) hcodes' hk' hrest)
    · next hpc =>
      exact .cons (.ifThen_false (beq_eq_false_iff_ne.2 hpc)) (ih (pre ++ [code]) hcodes' hk' h)

theorem machine_exec {codes : List (Block (Config S))} {n m numIters : ℕ} {τ τ' : Config S}
    (h : Passes Config.state (StateRuns codes) codes.length n τ τ') (hn : m + n = numIters) :
    (machine numIters codes).Exec (τ, m) .normal (τ', numIters) := by
  refine ⟨rfl, ?_⟩
  induction n generalizing m τ with
  | zero =>
    cases h
    cases hn
    exact .done (decide_eq_false (Nat.lt_irrefl m))
  | succ n ih =>
    obtain ⟨τ₁, hpass, hrest⟩ := h
    have htests := tests_exec [] rfl rfl hpass
    have hbody := Block.Exec.lift (L := configLens) (τ, m) _ htests
    have hlt : m < numIters := by omega
    have hcount : (Block.cons (.expr fun τ : Config S × ℕ => (τ.1, τ.2 + 1)) .nil).Exec (τ₁, m)
        .normal (τ₁, m + 1) := .cons ⟨rfl, rfl⟩ (.nil _)
    exact .step (fun _ => decide_eq_true hlt) (Block.Exec.append hcount _ hbody) nofun
      (ih (m := m + 1) hrest (by omega))

/-- `do { if (x == 0) { <exit> x = 7; } } while (0);` with a statement that may leave the loop. -/
def assignSeven (exit : Stmt ℕ) : Stmt ℕ :=
  .do_ (.block (.cons (.ifThen (· == 0)
    (.block (.cons exit (.cons (.expr fun _ => 7) .nil)))) .nil)) fun _ => false

theorem assignSeven_exec {exit : Stmt ℕ} (h : exit.Exec 0 .normal 0) :
    (assignSeven exit).Exec 0 .normal 7 := by
  have hbody : (Block.cons exit (.cons (.expr fun _ => 7) .nil)).Exec 0 .normal 7 :=
    .cons h (.cons ⟨rfl, rfl⟩ (.nil 7))
  exact ⟨rfl, .step (fun h => absurd h Bool.false_ne_true)
    (.cons (.ifThen_true rfl hbody) (.nil 7)) (by simp) (.done rfl)⟩

/-- `if (x == 1) { break; }`. -/
def bracedBreak : Stmt ℕ := .ifThen (· == 1) (.block (.cons .brk .nil))

/-- `if (x == 1) break;`. -/
def bareBreak : Stmt ℕ := .ifThen (· == 1) .brk

end Pequin.Flatten
