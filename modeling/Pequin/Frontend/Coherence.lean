import Pequin.Frontend.Guard

/-!
# Coherence of cached elements and RAM

The sets of `CacheManager` change while a branch is expanded and stay changed after it, whichever
branch is taken at run time. The write-back of a cached element is executed in either case, with the
value that the element has in the branch in which the write-back stands; the load of an element that
is not cached only reaches the variables of its own branch. After the `if`, every element that was
assigned in a branch counts as cached, also if it was stored to in RAM after the assignment.

This is harmless in an `if` that accesses elements at constant indices only while they are cached,
and that does not write back an element after assigning it. In a program whose conditionals are like
this, every read yields what it yields in C.
-/

namespace Pequin.Frontend

/-! ## Safe conditionals -/

/-- The elements that are assigned at a constant index. -/
def Simple.setsConst : Simple → ℕ → Bool
  | .setConst addr _, a => a = addr
  | _, _ => false

def Stmt.setsConst : Stmt → ℕ → Bool
  | .simple s, a => s.setsConst a
  | .skip, _ => false
  | .seq s t, a | .ite (.run _) s t, a => s.setsConst a || t.setsConst a
  | .ite (.const b) s t, a => if b then s.setsConst a else t.setsConst a

/-- An element accessed at a constant index is cached, and no element of `assigned` is written
back. -/
def Simple.Safe (assigned : ℕ → Bool) (cs : CState) : Simple → Prop
  | .assign .. => True
  | .setConst addr _ | .getConst _ addr => cs.notCached addr = false
  | .setDyn arr .. | .getDyn _ arr _ =>
    ∀ a ∈ arr.possibleAddresses, cs.notCached a = false → assigned a = false

/-- A branch without conditions that are tested at run time, in an `if` that has assigned the
elements of `assigned` before. -/
def Stmt.SafeBranch (assigned : ℕ → Bool) (cs : CState) : Stmt → Prop
  | .simple s => s.Safe assigned cs
  | .skip => True
  | .seq s t =>
    s.SafeBranch assigned cs ∧
      t.SafeBranch (fun a => assigned a || s.setsConst a) (s.expand cs).2
  | .ite (.const b) s t => if b then s.SafeBranch assigned cs else t.SafeBranch assigned cs
  | .ite (.run _) .. => False

/-- All conditionals of a program are safe: none is nested, an element is accessed at a constant
index in a branch only if it is cached then, and it is not written back in a branch if it was
assigned before in the same conditional. -/
def Stmt.Safe (cs : CState) : Stmt → Prop
  | .simple _ | .skip => True
  | .seq s t => s.Safe cs ∧ t.Safe (s.expand cs).2
  | .ite (.const b) s t => if b then s.Safe cs else t.Safe cs
  | .ite (.run _) s t =>
    s.SafeBranch (fun _ => false) cs.enterThen ∧
      t.SafeBranch s.setsConst (cs.enterElse (s.expand cs.enterThen).2)

/-! ## Writing back -/

/-- What `invalidateCache` does for a list of elements: those that were cached are in RAM
afterwards, nothing else changes. -/
structure Invalidated (addrs : List ℕ) (cs : CState) (rs : RState) (cs' : CState) (rs' : RState) :
    Prop where
  run_eq : rs' = { rs with ram := rs'.ram }
  state_eq : cs' = { cs with notCached := cs'.notCached, shouldFlush := cs'.shouldFlush }
  of_mem : ∀ a ∈ addrs, cs.notCached a = false →
    cs'.notCached a = true ∧ cs'.shouldFlush a = true ∧ rs'.ram a = rs.lvals a
  of_not : ∀ a, a ∉ addrs ∨ cs.notCached a = true →
    cs'.notCached a = cs.notCached a ∧ cs'.shouldFlush a = cs.shouldFlush a ∧ rs'.ram a = rs.ram a

/-- A write-back that is left out would not change RAM. -/
def Clean (cs : CState) (rs : RState) (a : ℕ) : Prop :=
  cs.shouldFlush a = false → cs.zero a = true → rs.ram a = rs.lvals a

theorem invalidateCache_run {cs : CState} {rs : RState} {addr : ℕ} (h : Clean cs rs addr) :
    Invalidated [addr] cs rs (cs.invalidateCache addr).2 ((cs.invalidateCache addr).1.run rs) := by
  unfold CState.invalidateCache
  by_cases hn : cs.notCached addr = true
  · rw [if_pos hn]
    refine ⟨rfl, rfl, fun a ha hc => ?_, fun a _ => ⟨rfl, rfl, rfl⟩⟩
    rw [List.mem_singleton.1 ha, hn] at hc
    cases hc
  · rw [if_neg hn]
    have hram : ∀ a, (Code.run rs (if !cs.shouldFlush addr && cs.zero addr then .skip
        else .flush addr)).ram a = if a = addr then rs.lvals addr else rs.ram a := by
      intro a
      split
      · next hskip =>
        rw [Bool.and_eq_true, Bool.not_eq_true'] at hskip
        split
        · next ha => rw [ha]; exact h hskip.1 hskip.2
        · rfl
      · exact Function.update_apply ..
    refine ⟨?_, rfl, fun a ha _ => ?_, fun a ha => ?_⟩
    · split <;> rfl
    · rw [hram, List.mem_singleton.1 ha, if_pos rfl]
      exact ⟨Function.update_self .., Function.update_self .., rfl⟩
    · have hne : a ≠ addr := by
        rintro rfl
        exact ha.elim (fun h => h List.mem_cons_self) hn
      rw [hram, if_neg hne]
      exact ⟨Function.update_of_ne hne .., Function.update_of_ne hne .., rfl⟩

variable {addrs : List ℕ}

theorem Invalidated.cons {addr : ℕ} {cs cs₁ cs₂ : CState} {rs rs₁ rs₂ : RState}
    (h : Invalidated [addr] cs rs cs₁ rs₁) (h' : Invalidated addrs cs₁ rs₁ cs₂ rs₂) :
    Invalidated (addr :: addrs) cs rs cs₂ rs₂ := by
  have hlvals : rs₁.lvals = rs.lvals := by rw [h.run_eq]
  refine ⟨?_, ?_, fun a ha hc => ?_, fun a ha => ?_⟩
  · rw [h'.run_eq, h.run_eq]
  · rw [h'.state_eq, h.state_eq]
  · by_cases hself : a = addr
    · obtain ⟨hn, hf, hr⟩ := h.of_mem a (List.mem_singleton.2 hself) hc
      obtain ⟨hn', hf', hr'⟩ := h'.of_not a (.inr hn)
      exact ⟨hn'.trans hn, hf'.trans hf, hr'.trans hr⟩
    · obtain ⟨hn, _, _⟩ := h.of_not a (.inl fun h => hself (List.mem_singleton.1 h))
      have := h'.of_mem a ((List.mem_cons.1 ha).resolve_left hself) (hn.trans hc)
      rwa [hlvals] at this
  · have hfirst : a ∉ [addr] ∨ cs.notCached a = true :=
      ha.imp_left fun h hm => h (List.mem_singleton.1 hm ▸ List.mem_cons_self)
    obtain ⟨hn, hf, hr⟩ := h.of_not a hfirst
    obtain ⟨hn', hf', hr'⟩ :=
      h'.of_not a (ha.imp (fun h hm => h (List.mem_cons_of_mem _ hm)) hn.trans)
    exact ⟨hn'.trans hn, hf'.trans hf, hr'.trans hr⟩

theorem Invalidated.mem_or {cs : CState} (a : ℕ) :
    (a ∈ addrs ∧ cs.notCached a = false) ∨ (a ∉ addrs ∨ cs.notCached a = true) := by
  by_cases ha : a ∈ addrs
  · cases hn : cs.notCached a with
    | false => exact .inl ⟨ha, rfl⟩
    | true => exact .inr (.inr rfl)
  · exact .inr (.inl ha)

theorem Invalidated.clean {cs cs' : CState} {rs rs' : RState} (h : Invalidated addrs cs rs cs' rs')
    (hclean : ∀ a, Clean cs rs a) (a : ℕ) : Clean cs' rs' a := by
  intro hf hz
  rw [h.state_eq] at hz
  have hlvals : rs'.lvals = rs.lvals := by rw [h.run_eq]
  rcases Invalidated.mem_or a with ⟨ha, hc⟩ | ha
  · rw [(h.of_mem a ha hc).2.1] at hf
    cases hf
  · obtain ⟨_, hf', hr⟩ := h.of_not a ha
    rw [hlvals, hr]
    exact hclean a (hf'.symm.trans hf) hz

theorem invalidateAll_run {cs : CState} {rs : RState} (addrs : List ℕ) (h : ∀ a, Clean cs rs a) :
    Invalidated addrs cs rs (cs.invalidateAll addrs).2 ((cs.invalidateAll addrs).1.run rs) := by
  induction addrs generalizing cs rs with
  | nil => exact ⟨rfl, rfl, fun a ha => absurd ha List.not_mem_nil, fun a _ => ⟨rfl, rfl, rfl⟩⟩
  | cons addr addrs ih =>
    have hfirst := invalidateCache_run (h addr)
    exact hfirst.cons (ih (hfirst.clean h))

/-! ## The invariant -/

/-- The state of the code and of the C program agree. In a branch that is not taken, the C program
stands still. `lvals₀` are the cached lvalues before the `if`, and `assigned` the elements that have
been assigned in it. Outside of branches, the branch is taken and all elements may have been
assigned. -/
structure Agrees (taken : Bool) (lvals₀ : ℕ → ℤ) (assigned : ℕ → Bool) (cs : CState) (rs : RState)
    (m : CMem) : Prop where
  scalars : taken = true → rs.scalars = m.scalars
  reads : taken = true → rs.reads = m.reads
  cached : taken = true → ∀ a, cs.notCached a = false → rs.lvals a = m.elems a
  kept : ∀ a, assigned a = false → rs.lvals a = lvals₀ a
  kept_elem : ∀ a, assigned a = false → cs.notCached a = false → m.elems a = lvals₀ a
  ram : ∀ a, cs.notCached a = true → rs.ram a = m.elems a
  ram_zero : ∀ a, cs.shouldFlush a = false → rs.ram a = 0
  flushed : ∀ a, cs.notCached a = true → cs.shouldFlush a = true
  zero : ∀ a, cs.zero a = true → rs.lvals a = 0

/-- The C program does a step in a branch that is taken, and none in one that is not. -/
def Simple.step (taken : Bool) (s : Simple) (m : CMem) : Option CMem :=
  if taken then s.exec m else some m

theorem Rhs.eval_of_isZero {e : Rhs} (h : e.isZero = true) (σ : Scalars) : e.eval σ = 0 := by
  cases e with
  | const c => exact of_decide_eq_true h
  | expr f => cases h

/-- The C program changes at most the element `addr`. -/
structure CMem.SameBut (addr : ℕ) (m m' : CMem) : Prop where
  scalars : m'.scalars = m.scalars
  reads : m'.reads = m.reads
  elems : ∀ a, a ≠ addr → m'.elems a = m.elems a

theorem Arr.mem_possibleAddresses {arr : Arr} {i : ℕ} (h : i < arr.len) :
    arr.base + i ∈ arr.possibleAddresses :=
  List.mem_map_of_mem (List.mem_range.2 h)

theorem invalidateAll_conds (addrs : List ℕ) (cs : CState) (rs : RState) :
    ((cs.invalidateAll addrs).1.run rs).conds = rs.conds := by
  induction addrs generalizing cs rs with
  | nil => rfl
  | cons addr addrs ih =>
    refine (ih (cs.invalidateCache addr).2 ((cs.invalidateCache addr).1.run rs)).trans ?_
    unfold CState.invalidateCache
    split
    · rfl
    · dsimp only
      split <;> rfl

variable {taken : Bool} {lvals₀ : ℕ → ℤ} {assigned : ℕ → Bool} {cs : CState} {rs : RState}
  {m m' : CMem}

section
variable (h : Agrees taken lvals₀ assigned cs rs m)
include h

theorem Agrees.clean (a : ℕ) : Clean cs rs a := by
  intro hf hz
  rw [h.ram_zero a hf, h.zero a hz]

/-- Elements may be written back if they have not been assigned, or if the branch is taken. -/
theorem Agrees.invalidateAll
    (hsafe : ∀ a ∈ addrs, cs.notCached a = false → assigned a = false ∨ taken = true) :
    Agrees taken lvals₀ assigned (cs.invalidateAll addrs).2 ((cs.invalidateAll addrs).1.run rs) m ∧
      ∀ a ∈ addrs, (cs.invalidateAll addrs).2.notCached a = true := by
  have hinv := invalidateAll_run addrs h.clean
  generalize (cs.invalidateAll addrs).2 = cs' at hinv ⊢
  generalize (cs.invalidateAll addrs).1.run rs = rs' at hinv ⊢
  have hlvals : rs'.lvals = rs.lvals := by rw [hinv.run_eq]
  have hmono : ∀ a, cs'.notCached a = false → cs.notCached a = false := by
    intro a hc
    rcases Invalidated.mem_or a with ⟨ha, hc'⟩ | ha
    · exact hc'
    · exact (hinv.of_not a ha).1.symm.trans hc
  refine ⟨⟨?_, ?_, ?_, ?_, ?_, ?_, ?_, ?_, ?_⟩, ?_⟩
  · rw [hinv.run_eq]
    exact h.scalars
  · rw [hinv.run_eq]
    exact h.reads
  · rw [hlvals]
    exact fun ht a hc => h.cached ht a (hmono a hc)
  · rw [hlvals]
    exact h.kept
  · exact fun a ha hc => h.kept_elem a ha (hmono a hc)
  · intro a hn
    rcases Invalidated.mem_or a with ⟨ha, hc⟩ | ha
    · rw [(hinv.of_mem a ha hc).2.2]
      rcases hsafe a ha hc with hw | ht
      · rw [h.kept a hw, h.kept_elem a hw hc]
      · exact h.cached ht a hc
    · obtain ⟨hn', _, hr⟩ := hinv.of_not a ha
      rw [hr, h.ram a (hn'.symm.trans hn)]
  · intro a hf
    rcases Invalidated.mem_or a with ⟨ha, hc⟩ | ha
    · rw [(hinv.of_mem a ha hc).2.1] at hf
      cases hf
    · obtain ⟨_, hf', hr⟩ := hinv.of_not a ha
      rw [hr, h.ram_zero a (hf'.symm.trans hf)]
  · intro a hn
    rcases Invalidated.mem_or a with ⟨ha, hc⟩ | ha
    · exact (hinv.of_mem a ha hc).2.1
    · obtain ⟨hn', hf', _⟩ := hinv.of_not a ha
      exact hf'.trans (h.flushed a (hn'.symm.trans hn))
  · intro a hz
    rw [hinv.state_eq] at hz
    rw [hlvals, h.zero a hz]
  · intro a ha
    cases hn : cs.notCached a with
    | false => exact (hinv.of_mem a ha hn).1
    | true => exact (hinv.of_not a (.inr hn)).1.trans hn

/-! ## Statements -/

theorem Agrees.assign {x : Var} {e : Rhs} (hstep : (Simple.assign x e).step taken m = some m') :
    Agrees taken lvals₀ assigned cs ((Code.assign x e).run rs) m' := by
  cases taken with
  | false =>
    cases hstep
    exact ⟨nofun, nofun, nofun, h.kept, h.kept_elem, h.ram, h.ram_zero, h.flushed, h.zero⟩
  | true =>
    cases hstep
    refine ⟨fun ht => ?_, h.reads, h.cached, h.kept, h.kept_elem, h.ram, h.ram_zero, h.flushed,
      h.zero⟩
    show Function.update rs.scalars x (e.eval rs.scalars) = _
    rw [h.scalars ht]

/-- An element gets a cached lvalue, from an assignment or from RAM. -/
theorem Agrees.cache {addr : ℕ} {v : ℤ} {z : Bool} {assigned' : ℕ → Bool} (hm : m.SameBut addr m')
    (hv : taken = true → v = m'.elems addr) (hz : z = true → v = 0)
    (hassigned : ∀ a, assigned' a = false → assigned a = false ∧ a ≠ addr) :
    Agrees taken lvals₀ assigned' { cs.addCache addr with zero := Function.update cs.zero addr z }
      { rs with lvals := Function.update rs.lvals addr v } m' := by
  have hcached : ∀ a, a ≠ addr → (cs.addCache addr).notCached a = cs.notCached a :=
    fun a hne => Function.update_of_ne hne ..
  have hn : ∀ a, (cs.addCache addr).notCached a = true → a ≠ addr := by
    rintro a ha rfl
    rw [show (cs.addCache a).notCached a = false from Function.update_self ..] at ha
    cases ha
  refine ⟨fun ht => (h.scalars ht).trans hm.scalars.symm, fun ht =>
    (h.reads ht).trans hm.reads.symm,
    fun ht a hc => ?_, fun a hw => ?_, fun a hw hc => ?_, fun a hc => ?_, h.ram_zero, fun a hc =>
    ?_, fun a hz' => ?_⟩
  · dsimp only
    by_cases hne : a = addr
    · rw [hne, Function.update_self, hv ht]
    · rw [Function.update_of_ne hne, hm.elems a hne, h.cached ht a ((hcached a hne).symm.trans hc)]
  · obtain ⟨hw, hne⟩ := hassigned a hw
    dsimp only
    rw [Function.update_of_ne hne, h.kept a hw]
  · obtain ⟨hw, hne⟩ := hassigned a hw
    rw [hm.elems a hne, h.kept_elem a hw ((hcached a hne).symm.trans hc)]
  · rw [hm.elems a (hn a hc)]
    exact h.ram a ((hcached a (hn a hc)).symm.trans hc)
  · exact h.flushed a ((hcached a (hn a hc)).symm.trans hc)
  · dsimp only at hz' ⊢
    by_cases hne : a = addr
    · rw [hne, Function.update_self] at hz'
      rw [hne, Function.update_self, hz hz']
    · rw [Function.update_of_ne hne] at hz' ⊢
      exact h.zero a hz'

theorem Agrees.setConst {addr : ℕ} {e : Rhs}
    (hstep : (Simple.setConst addr e).step taken m = some m') :
    Agrees taken lvals₀ (fun a => assigned a || (Simple.setConst addr e).setsConst a)
      ((Simple.setConst addr e).expand cs).2 ((Code.setLval addr e).run rs) m' := by
  have hassigned : ∀ a, (assigned a || (Simple.setConst addr e).setsConst a) = false →
      assigned a = false ∧ a ≠ addr := by
    intro a hw
    rw [Bool.or_eq_false_iff] at hw
    exact ⟨hw.1, of_decide_eq_false hw.2⟩
  have hz := fun hz : e.isZero = true => Rhs.eval_of_isZero hz rs.scalars
  cases taken with
  | false =>
    cases hstep
    exact h.cache ⟨rfl, rfl, fun _ _ => rfl⟩ nofun hz hassigned
  | true =>
    cases hstep
    refine h.cache ⟨rfl, rfl, fun a hne => Function.update_of_ne hne ..⟩ (fun ht => ?_) hz hassigned
    dsimp only
    rw [Function.update_self, h.scalars ht]

/-- A read of an element in a branch that is taken yields its value. -/
theorem Agrees.read {x : Var} {addr : ℕ} {v : ℤ} (hv : taken = true → v = m.elems addr) :
    Agrees taken lvals₀ assigned cs (rs.read x v) (if taken then m.read x addr else m) := by
  cases taken with
  | false => exact ⟨nofun, nofun, nofun, h.kept, h.kept_elem, h.ram, h.ram_zero, h.flushed, h.zero⟩
  | true =>
    refine ⟨fun ht => ?_, fun ht => ?_, h.cached, h.kept, h.kept_elem, h.ram, h.ram_zero, h.flushed,
      h.zero⟩
    · show Function.update rs.scalars x v = Function.update m.scalars x (m.elems addr)
      rw [hv ht, h.scalars ht]
    · show rs.reads ++ [v] = m.reads ++ [m.elems addr]
      rw [hv ht, h.reads ht]

theorem Agrees.getConst {x : Var} {addr : ℕ}
    (hsafe : cs.notCached addr = false ∨ taken = true ∧ assigned addr = true)
    (hstep : (Simple.getConst x addr).step taken m = some m') :
    Agrees taken lvals₀ assigned ((Simple.getConst x addr).expand cs).2
      (((Simple.getConst x addr).expand cs).1.run rs) m' := by
  have hm : m' = if taken then m.read x addr else m := by
    cases taken <;> cases hstep <;> rfl
  rw [hm]
  cases hn : cs.notCached addr with
  | false =>
    simp only [Simple.expand, hn]
    exact h.read fun ht => h.cached ht addr hn
  | true =>
    -- a load that is only right in a branch that is taken
    obtain ⟨ht, hw⟩ := hsafe.resolve_left (by rw [hn]; exact Bool.noConfusion)
    simp only [Simple.expand, hn, if_true]
    have hne : ∀ a, assigned a = false → assigned a = false ∧ a ≠ addr := by
      refine fun a ha => ⟨ha, ?_⟩
      rintro rfl
      exact Bool.noConfusion (ha.symm.trans hw)
    have hload : Agrees taken lvals₀ assigned
        { cs.addCache addr with zero := Function.update cs.zero addr false }
        ((Code.ramget addr).run rs) m :=
      h.cache ⟨rfl, rfl, fun _ _ => rfl⟩ (fun _ => h.ram addr hn) (by simp) hne
    exact hload.read fun _ => (Function.update_self ..).trans (h.ram addr hn)

/-- A store to RAM at an element that is not cached. -/
theorem Agrees.store {addr : ℕ} {v : ℤ} (hn : cs.notCached addr = true) :
    Agrees taken lvals₀ assigned cs { rs with ram := Function.update rs.ram addr v }
      { m with elems := Function.update m.elems addr v } := by
  have hne : ∀ a, cs.notCached a = false → a ≠ addr := by
    rintro a hc rfl
    exact Bool.noConfusion (hc.symm.trans hn)
  refine ⟨h.scalars, h.reads, fun ht a hc => ?_, h.kept, fun a hw hc => ?_, fun a hc => ?_,
    fun a hf => ?_, h.flushed, h.zero⟩
  · dsimp only
    rw [Function.update_of_ne (hne a hc), h.cached ht a hc]
  · dsimp only
    rw [Function.update_of_ne (hne a hc), h.kept_elem a hw hc]
  · dsimp only
    by_cases ha : a = addr
    · rw [ha, Function.update_self, Function.update_self]
    · rw [Function.update_of_ne ha, Function.update_of_ne ha, h.ram a hc]
  · have ha : a ≠ addr := by
      rintro rfl
      exact Bool.noConfusion (hf.symm.trans (h.flushed a hn))
    dsimp only
    rw [Function.update_of_ne ha, h.ram_zero a hf]

theorem Agrees.setDyn {arr : Arr} {i : Scalars → ℕ} {e : Rhs}
    (hguard : cs.guard.Executed rs.conds ↔ taken = true)
    (hsafe : ∀ a ∈ arr.possibleAddresses, cs.notCached a = false →
      assigned a = false ∨ taken = true) (hstep : (Simple.setDyn arr i e).step taken m = some m') :
    Agrees taken lvals₀ assigned ((Simple.setDyn arr i e).expand cs).2
      (((Simple.setDyn arr i e).expand cs).1.run rs) m' := by
  obtain ⟨hinv, hn⟩ := h.invalidateAll hsafe
  have hconds := invalidateAll_conds arr.possibleAddresses cs rs
  have hcs := (noStores_invalidateAll arr.possibleAddresses cs).conditions
  rw [CState.guard_eq, ← hcs, ← CState.guard_eq, ← hconds] at hguard
  simp only [Simple.expand, Code.run]
  generalize (cs.invalidateAll arr.possibleAddresses).2 = cs' at hinv hn hguard ⊢
  generalize (cs.invalidateAll arr.possibleAddresses).1.run rs = rs' at hinv hguard ⊢
  cases taken with
  | false =>
    cases hstep
    rw [if_neg (fun hex => Bool.noConfusion (hguard.1 hex))]
    exact hinv
  | true =>
    have hindex : i rs'.scalars = i m.scalars := congrArg i (hinv.scalars rfl)
    have hvalue : e.eval rs'.scalars = e.eval m.scalars := by rw [hinv.scalars rfl]
    rw [if_pos (hguard.2 rfl), hindex, hvalue]
    simp only [Simple.step, Simple.exec, if_true, Option.ite_none_right_eq_some,
      Option.some.injEq] at hstep
    obtain ⟨hi, rfl⟩ := hstep
    exact hinv.store (hn _ (arr.mem_possibleAddresses hi))

theorem Agrees.getDyn {x : Var} {arr : Arr} {i : Scalars → ℕ}
    (hsafe : ∀ a ∈ arr.possibleAddresses, cs.notCached a = false →
      assigned a = false ∨ taken = true) (hstep : (Simple.getDyn x arr i).step taken m = some m') :
    Agrees taken lvals₀ assigned ((Simple.getDyn x arr i).expand cs).2
      (((Simple.getDyn x arr i).expand cs).1.run rs) m' := by
  obtain ⟨hinv, hn⟩ := h.invalidateAll hsafe
  simp only [Simple.expand, Code.run]
  generalize (cs.invalidateAll arr.possibleAddresses).2 = cs' at hinv hn ⊢
  generalize (cs.invalidateAll arr.possibleAddresses).1.run rs = rs' at hinv ⊢
  cases taken with
  | false =>
    cases hstep
    exact @Agrees.read _ _ _ _ _ _ hinv x 0 _ (by simp)
  | true =>
    simp only [Simple.step, Simple.exec, if_true, Option.ite_none_right_eq_some,
      Option.some.injEq] at hstep
    obtain ⟨hi, rfl⟩ := hstep
    rw [hinv.scalars rfl]
    exact hinv.read fun _ => hinv.ram _ (hn _ (arr.mem_possibleAddresses hi))

/-- A statement keeps the invariant, if it is safe in its branch or stands outside of branches. -/
theorem Agrees.simple {s : Simple} (hguard : cs.guard.Executed rs.conds ↔ taken = true)
    (hsafe : s.Safe assigned cs ∨ taken = true ∧ ∀ a, assigned a = true)
    (hstep : s.step taken m = some m') :
    Agrees taken lvals₀ (fun a => assigned a || s.setsConst a) (s.expand cs).2
      ((s.expand cs).1.run rs) m' := by
  have hno : (fun a => assigned a || false) = assigned := funext fun a => Bool.or_false _
  cases s with
  | assign x e =>
    have := h.assign hstep
    rwa [← hno] at this
  | setConst addr e => exact h.setConst hstep
  | getConst x addr =>
    have := h.getConst (hsafe.imp_right fun ht => ⟨ht.1, ht.2 addr⟩) hstep
    rwa [← hno] at this
  | setDyn arr i e =>
    have := h.setDyn hguard (fun a ha hc => hsafe.imp (fun hs => hs a ha hc) And.left) hstep
    rwa [← hno] at this
  | getDyn x arr i =>
    have := h.getDyn (fun a ha hc => hsafe.imp (fun hs => hs a ha hc) And.left) hstep
    rwa [← hno] at this

theorem Agrees.weaken {assigned' : ℕ → Bool}
    (hsub : ∀ a, assigned' a = false → assigned a = false) :
    Agrees taken lvals₀ assigned' cs rs m :=
  ⟨h.scalars, h.reads, h.cached, fun a ha => h.kept a (hsub a ha),
    fun a ha => h.kept_elem a (hsub a ha), h.ram, h.ram_zero, h.flushed, h.zero⟩

abbrev Coherent (cs : CState) (rs : RState) (m : CMem) : Prop :=
  Agrees true (fun _ => 0) (fun _ => true) cs rs m

end

theorem Simple.run_conds (s : Simple) (cs : CState) (rs : RState) :
    ((s.expand cs).1.run rs).conds = rs.conds := by
  cases s with
  | assign | setConst => rfl
  | getConst x addr =>
    simp only [Simple.expand]
    split <;> rfl
  | setDyn arr i e =>
    refine Eq.trans ?_ (invalidateAll_conds arr.possibleAddresses cs rs)
    simp only [Simple.expand, Code.run]
    split <;> rfl
  | getDyn x arr i => exact invalidateAll_conds arr.possibleAddresses cs rs

theorem invalidateAll_notCached (addrs : List ℕ) (cs : CState) (a : ℕ) :
    (cs.invalidateAll addrs).2.notCached a = (cs.notCached a || decide (a ∈ addrs)) := by
  induction addrs generalizing cs with
  | nil => exact (Bool.or_false _).symm
  | cons addr addrs ih =>
    have hfirst : (cs.invalidateCache addr).2.notCached a =
      (cs.notCached a || decide (a = addr)) := by
      unfold CState.invalidateCache
      by_cases ha : a = addr
      · subst ha
        cases hn : cs.notCached a <;> simp [hn]
      · split <;> simp [ha]
    refine (ih (cs.invalidateCache addr).2).trans ?_
    simp [hfirst, Bool.or_assoc]

/-- A safe statement caches nothing that was not cached. -/
theorem Simple.Safe.notCached {s : Simple} (hs : s.Safe assigned cs) (a : ℕ)
    (h : (s.expand cs).2.notCached a = false) : cs.notCached a = false := by
  cases s with
  | assign => exact h
  | setConst addr e =>
    by_cases hne : a = addr
    · rw [hne]
      exact hs
    · exact (Function.update_of_ne hne ..).symm.trans h
  | getConst x addr =>
    rw [Simple.expand, if_neg (by rw [show cs.notCached addr = false from hs]; decide)] at h
    exact h
  | setDyn arr | getDyn x arr =>
    exact (Bool.or_eq_false_iff.1 ((invalidateAll_notCached _ _ a).symm.trans h)).1

/-- Elements that were assigned stay cached, and no others get a lvalue. -/
theorem Simple.Safe.keeps {s : Simple} (hs : s.Safe assigned cs)
    (hc : ∀ a, assigned a = true → cs.notCached a = false) :
    (∀ a, (assigned a || s.setsConst a) = true → (s.expand cs).2.notCached a = false) ∧
      ∀ a ∈ (s.expand cs).1.assigned, s.setsConst a = true := by
  have hdyn (arr : Arr) (hsafe : ∀ a ∈ arr.possibleAddresses, cs.notCached a = false →
      assigned a = false) (a : ℕ) (ha : (assigned a || false) = true) :
      (cs.invalidateAll arr.possibleAddresses).2.notCached a = false := by
    rw [Bool.or_false] at ha
    have hmem : a ∉ arr.possibleAddresses := fun hmem =>
      Bool.noConfusion (ha.symm.trans (hsafe a hmem (hc a ha)))
    rw [invalidateAll_notCached, hc a ha, Bool.false_or, decide_eq_false hmem]
  cases s with
  | assign => exact ⟨fun a ha => hc a ((Bool.or_false _).symm.trans ha), List.forall_mem_nil _⟩
  | setConst addr e =>
    refine ⟨fun a ha => ?_, fun a ha => decide_eq_true (List.mem_singleton.1 ha)⟩
    by_cases hne : a = addr
    · rw [hne]
      exact Function.update_self ..
    · refine (Function.update_of_ne hne ..).trans (hc a ?_)
      simpa [Simple.setsConst, hne] using ha
  | getConst x addr =>
    rw [Simple.expand, if_neg (by rw [show cs.notCached addr = false from hs]; decide)]
    exact ⟨fun a ha => hc a ((Bool.or_false _).symm.trans ha), List.forall_mem_nil _⟩
  | setDyn arr i e =>
    refine ⟨hdyn arr hs, fun a ha => ?_⟩
    simp [Simple.expand, Code.assigned, (noStores_invalidateAll _ _).assigned] at ha
  | getDyn x arr i =>
    refine ⟨hdyn arr hs, fun a ha => ?_⟩
    simp [Simple.expand, Code.assigned, (noStores_invalidateAll _ _).assigned] at ha

/-! ## Branches -/

def Stmt.step (taken : Bool) (s : Stmt) (m : CMem) : Option CMem :=
  if taken then s.exec m else some m

theorem Stmt.step_seq {s t : Stmt} (h : (Stmt.seq s t).step taken m = some m') :
    ∃ m₁, s.step taken m = some m₁ ∧ t.step taken m₁ = some m' := by
  cases taken with
  | false => exact ⟨m, rfl, h⟩
  | true => exact Option.bind_eq_some_iff.1 h

variable {s : Stmt}

/-- A safe branch keeps the invariant, whether it is taken or not. -/
theorem Agrees.branch (h : Agrees taken lvals₀ assigned cs rs m)
    (hguard : cs.guard.Executed rs.conds ↔ taken = true) (hsafe : s.SafeBranch assigned cs)
    (hstep : s.step taken m = some m') :
    Agrees taken lvals₀ (fun a => assigned a || s.setsConst a) (s.expand cs).2
        ((s.expand cs).1.run rs) m' ∧
      ((s.expand cs).1.run rs).conds = rs.conds ∧
        ∀ a, (s.expand cs).2.notCached a = false → cs.notCached a = false := by
  induction s generalizing assigned cs rs m m' with
  | simple s => exact ⟨h.simple hguard (.inl hsafe) hstep, s.run_conds cs rs,
      Simple.Safe.notCached hsafe⟩
  | skip =>
    have hm : m' = m := by
      cases taken <;> cases hstep <;> rfl
    rw [hm]
    have hno : (fun a => assigned a || Stmt.skip.setsConst a) = assigned :=
      funext fun a => Bool.or_false _
    rw [hno]
    exact ⟨h, rfl, fun _ => id⟩
  | seq s t ihs iht =>
    obtain ⟨m₁, hs, ht⟩ := Stmt.step_seq hstep
    obtain ⟨h₁, hconds₁, hmono₁⟩ := ihs h hguard hsafe.1 hs
    have hguard₁ : (s.expand cs).2.guard.Executed ((s.expand cs).1.run rs).conds ↔
      taken = true := by
      rw [hconds₁, CState.guard_eq, (s.emitted cs).conditions_eq, ← CState.guard_eq]
      exact hguard
    obtain ⟨h₂, hconds₂, hmono₂⟩ := iht h₁ hguard₁ hsafe.2 ht
    refine ⟨?_, hconds₂.trans hconds₁, fun a ha => hmono₁ a (hmono₂ a ha)⟩
    have hor : (fun a => assigned a || (Stmt.seq s t).setsConst a) =
        fun a => assigned a || s.setsConst a || t.setsConst a :=
      funext fun a => (Bool.or_assoc ..).symm
    rw [hor]
    exact h₂
  | ite c s t ihs iht =>
    cases c with
    | const b =>
      cases b with
      | false => exact iht h hguard hsafe hstep
      | true => exact ihs h hguard hsafe hstep
    | run f => exact hsafe.elim

theorem Stmt.SafeBranch.keeps (hs : s.SafeBranch assigned cs)
    (hc : ∀ a, assigned a = true → cs.notCached a = false) :
    (∀ a, (assigned a || s.setsConst a) = true → (s.expand cs).2.notCached a = false) ∧
      ∀ a ∈ (s.expand cs).1.assigned, s.setsConst a = true := by
  induction s generalizing assigned cs with
  | simple s => exact Simple.Safe.keeps hs hc
  | skip => exact ⟨fun a ha => hc a ((Bool.or_false _).symm.trans ha), List.forall_mem_nil _⟩
  | seq s t ihs iht =>
    obtain ⟨hkeeps, hsets⟩ := ihs hs.1 hc
    obtain ⟨hkeeps', hsets'⟩ := iht hs.2 hkeeps
    refine ⟨fun a ha => hkeeps' a ((Bool.or_assoc ..).trans ha), fun a ha => ?_⟩
    exact Bool.or_eq_true_iff.2 ((List.mem_append.1 ha).imp (hsets a) (hsets' a))
  | ite c s t ihs iht =>
    cases c with
    | const b =>
      cases b with
      | false => exact iht hs hc
      | true => exact ihs hs hc
    | run f => exact hs.elim

/-- Merging lvalues of cached elements loads nothing. -/
theorem expandEach_evaluate {addrs : List ℕ} (h : ∀ a ∈ addrs, cs.notCached a = false) :
    (cs.expandEach CState.evaluate addrs).2 = cs ∧
      ∀ rs, (cs.expandEach CState.evaluate addrs).1.run rs = rs := by
  induction addrs with
  | nil => exact ⟨rfl, fun _ => rfl⟩
  | cons addr addrs ih =>
    have hfirst : cs.evaluate addr = (.skip, cs) :=
      if_neg (by rw [h addr List.mem_cons_self]; decide)
    simp only [CState.expandEach, hfirst]
    exact ih fun a ha => h a (List.mem_cons_of_mem _ ha)

/-- Lvalues that the code does not assign keep their value. -/
theorem Code.run_lvals (p : Code) {a : ℕ} (h : a ∉ p.assigned) (rs : RState) :
    (p.run rs).lvals a = rs.lvals a := by
  induction p generalizing rs with
  | skip | assign | getLval | ramgetDyn | flush | reload | test => rfl
  | seq p q ihp ihq =>
    rw [Code.assigned, List.mem_append, not_or] at h
    exact (ihq h.2 _).trans (ihp h.1 rs)
  | setLval addr e => exact Function.update_of_ne (List.ne_of_not_mem_cons h) ..
  | ramget addr => exact Function.update_of_ne (List.ne_of_not_mem_cons h) ..
  | ramput arr i e guard =>
    simp only [Code.run]
    split <;> rfl
  | mux k p q ihp ihq =>
    rw [Code.assigned, List.mem_append, not_or] at h
    simp only [Code.run]
    split
    · exact ihp h.1 rs
    · exact ihq h.2 _

/-- The first branch begins: no element has been assigned. -/
theorem Coherent.enterThen (h : Coherent cs rs m) (taken : Bool) (conds : ℕ → Bool) :
    Agrees taken rs.lvals (fun _ => false) cs.enterThen { rs with conds := conds } m :=
  ⟨fun _ => h.scalars rfl, fun _ => h.reads rfl, fun _ => h.cached rfl, fun _ _ => rfl,
    fun a _ hc => (h.cached rfl a hc).symm, h.ram, h.ram_zero, h.flushed, h.zero⟩

/-- The second branch begins, with the variables from before the first one. -/
theorem Agrees.enterElse {cs₁ : CState} {rs₁ : RState} {m₁ : CMem} (h : Coherent cs rs m)
    (h₁ : Agrees taken rs.lvals assigned cs₁ rs₁ m₁) (hm : taken = false → m₁ = m)
    (hmono : ∀ a, cs₁.notCached a = false → cs.notCached a = false) :
    Agrees (!taken) rs.lvals assigned (cs.enterElse cs₁)
      { rs with conds := rs₁.conds, ram := rs₁.ram } m₁ := by
  have hm' : (!taken) = true → m₁ = m := fun ht => hm (by rwa [Bool.not_eq_true'] at ht)
  refine ⟨fun ht => ?_, fun ht => ?_, fun ht a hc => ?_, fun _ _ => rfl, h₁.kept_elem, h₁.ram,
    h₁.ram_zero, h₁.flushed, h.zero⟩
  · rw [hm' ht]
    exact h.scalars rfl
  · rw [hm' ht]
    exact h.reads rfl
  · rw [hm' ht]
    exact h.cached rfl a (hmono a hc)

/-- Both branches end. -/
theorem Agrees.join {cs₁ cs₂ : CState} {rs₁ rs₂ : RState} {m₁ m' : CMem} {assigned₁ assigned₂}
    {merged : List ℕ} (h₁ : Agrees taken lvals₀ assigned₁ cs₁ rs₁ m₁)
    (h₂ : Agrees (!taken) lvals₀ assigned₂ cs₂ rs₂ m') (hm : taken = true → m' = m₁)
    (hmono : ∀ a, cs₂.notCached a = false → cs₁.notCached a = false)
    (hzero : ∀ a, (cs.zero a && decide (a ∉ merged)) = true → rs₁.lvals a = 0 ∧ rs₂.lvals a = 0) :
    Coherent (CState.join merged cs cs₂.popCondition)
      { (if taken then rs₁ else rs₂) with conds := rs₂.conds, ram := rs₂.ram } m' := by
  cases taken with
  | false =>
    exact ⟨h₂.scalars, h₂.reads, h₂.cached, nofun, nofun, h₂.ram, h₂.ram_zero, h₂.flushed,
      fun a hz => (hzero a hz).2⟩
  | true =>
    refine ⟨fun ht => ?_, fun ht => ?_, fun ht a hc => ?_, nofun, nofun, h₂.ram, h₂.ram_zero,
      h₂.flushed, fun a hz => (hzero a hz).1⟩
    · rw [hm rfl]
      exact h₁.scalars rfl
    · rw [hm rfl]
      exact h₁.reads rfl
    · rw [hm rfl]
      exact h₁.cached rfl a (hmono a hc)

/-- The C program stands still in the branch that is not taken. -/
theorem Stmt.steps_of_ite {f : Scalars → Bool} {s t : Stmt}
    (hexec : (Stmt.ite (.run f) s t).exec m = some m') :
    ∃ m₁, s.step (f m.scalars) m = some m₁ ∧ t.step (!f m.scalars) m₁ = some m' ∧
      (f m.scalars = false → m₁ = m) ∧ (f m.scalars = true → m' = m₁) := by
  rw [Stmt.exec, Cond.eval] at hexec
  cases hv : f m.scalars with
  | false =>
    rw [hv] at hexec
    exact ⟨m, rfl, hexec, fun _ => rfl, nofun⟩
  | true =>
    rw [hv] at hexec
    exact ⟨m', hexec, rfl, nofun, fun _ => rfl⟩

theorem Coherent.ite {f : Scalars → Bool} {s t : Stmt} (h : Coherent cs rs m)
    (hsafe : (Stmt.ite (.run f) s t).Safe cs) (hexec : (Stmt.ite (.run f) s t).exec m = some m') :
    Coherent ((Stmt.ite (.run f) s t).expand cs).2
      (((Stmt.ite (.run f) s t).expand cs).1.run rs) m' := by
  obtain ⟨hs, ht⟩ := hsafe
  obtain ⟨m₁, hstep₁, hstep₂, hm₁, hm'⟩ := Stmt.steps_of_ite hexec
  have hσ : f rs.scalars = f m.scalars := by rw [h.scalars rfl]
  -- the elements that are merged are cached
  obtain ⟨hkeeps₁, hsets₁⟩ := hs.keeps nofun
  obtain ⟨hkeeps₂, hsets₂⟩ := ht.keeps fun a ha => hkeeps₁ a ha
  have hcached (a : ℕ) (ha : a ∈ (s.expand cs.enterThen).1.assigned ++
      (t.expand (cs.enterElse (s.expand cs.enterThen).2)).1.assigned) :
      (t.expand (cs.enterElse (s.expand cs.enterThen).2)).2.popCondition.notCached a = false :=
    hkeeps₂ a (Bool.or_eq_true_iff.2 ((List.mem_append.1 ha).imp (hsets₁ a) (hsets₂ a)))
  obtain ⟨hstate, hrun⟩ := expandEach_evaluate hcached
  simp only [Stmt.expand, Code.run, Function.update_self, hσ, hstate, hrun]
  generalize f m.scalars = v at hstep₁ hstep₂ hm₁ hm' ⊢
  have hcond : Function.update rs.conds cs.next v cs.next = v := Function.update_self ..
  obtain ⟨h₁, hconds₁, hmono₁⟩ :=
    (Coherent.enterThen h v (Function.update rs.conds cs.next v)).branch
    (Eq.congr_left hcond) hs hstep₁
  generalize s.expand cs.enterThen = r₁ at h₁ hconds₁ hmono₁ ht ⊢
  have hguard₂ : ((r₁.1.run { rs with conds := Function.update rs.conds cs.next v }).conds cs.next =
      false) ↔ (!v) = true := by
    rw [(congrFun hconds₁ cs.next).trans hcond, Bool.not_eq_true']
  simp only [Bool.false_or] at h₁
  obtain ⟨h₂, -, hmono₂⟩ := (Agrees.enterElse h h₁ hm₁ hmono₁).branch hguard₂ ht hstep₂
  generalize t.expand (cs.enterElse r₁.2) = r₂ at h₂ hmono₂ ⊢
  refine h₁.join h₂ hm' hmono₂ fun a hz => ?_
  obtain ⟨hz, hnot⟩ := Bool.and_eq_true_iff.1 hz
  rw [decide_eq_true_iff, List.mem_append, not_or] at hnot
  rw [Code.run_lvals _ hnot.1, Code.run_lvals _ hnot.2]
  exact ⟨h.zero a hz, h.zero a hz⟩

/-- The states stay coherent over a whole program. -/
theorem Coherent.run (h : Coherent cs rs m) (hcs : cs.conditions = []) (hsafe : s.Safe cs)
    (hexec : s.exec m = some m') : Coherent (s.expand cs).2 ((s.expand cs).1.run rs) m' := by
  induction s generalizing cs rs m m' with
  | simple s =>
    have hguard : cs.guard.Executed rs.conds ↔ true = true := by
      rw [CState.guard_eq, hcs]
      exact iff_of_true trivial rfl
    exact (h.simple hguard (.inr ⟨rfl, fun _ => rfl⟩) hexec).weaken nofun
  | skip =>
    cases hexec
    exact h
  | seq s t ihs iht =>
    obtain ⟨m₁, hs, ht⟩ := Option.bind_eq_some_iff.1 hexec
    exact iht (ihs h hcs hsafe.1 hs) ((s.emitted cs).conditions_eq.trans hcs) hsafe.2 ht
  | ite c s t ihs iht =>
    cases c with
    | const b =>
      cases b with
      | false => exact iht h hcs hsafe hexec
      | true => exact ihs h hcs hsafe hexec
    | run f => exact Coherent.ite h hsafe hexec

theorem Coherent.init (σ : Scalars) : Coherent .init (.init σ) (.init σ) :=
  ⟨fun _ => rfl, fun _ => rfl, fun _ _ _ => rfl, nofun, nofun, fun _ _ => rfl, fun _ _ => rfl,
    nofun, fun _ _ => rfl⟩

/-- `a[0] = 5; if (x0) { a[0] = 7; } x2 = a[x1];`. -/
def assignThenRead : Stmt :=
  .seq (.simple (.setConst 0 (.const 5)))
    (.seq (.ite (.run fun σ => σ 0 = 1) (.simple (.setConst 0 (.const 7))) .skip)
      (.simple (.getDyn 2 ⟨0, 2⟩ fun σ => (σ 1).toNat)))

/-- `if (x0) { a[0] = 5; a[x1] = 7; } x3 = a[0];`. -/
def assignInBranch : Stmt :=
  .seq (.ite (.run fun σ => σ 0 = 1)
      (.seq (.simple (.setConst 0 (.const 5)))
        (.simple (.setDyn ⟨0, 2⟩ (fun σ => (σ 1).toNat) (.const 7)))) .skip)
    (.simple (.getConst 3 0))

end Pequin.Frontend
