import Mathlib.Data.List.Forall2
import Mathlib.Order.Nat
import Pequin.Frontend.Store

/-!
# The guards of stores

A store at a run-time index stands in a list of branches, and is meant to be executed if every
condition selects its branch. The emitted store carries the innermost condition only, so this is so
for all values of the conditions exactly if no store stands in more than one `if`.
-/

namespace Pequin.Frontend

/-- A store and the branches it stands in, the innermost one first. -/
structure Site where
  arr : Arr
  i : Scalars → ℕ
  path : List (ℕ × Bool)

/-- Every enclosing condition selects the branch of the store. -/
def Site.Selected (conds : ℕ → Bool) (site : Site) : Prop := ∀ p ∈ site.path, conds p.1 = p.2

def Simple.sites (path : List (ℕ × Bool)) : Simple → List Site
  | .setDyn arr i _ => [⟨arr, i, path⟩]
  | _ => []

/-- The stores of a program in the order in which they are expanded, with conditions numbered from
`next` on; the second component is the next number. -/
def Stmt.sites (path : List (ℕ × Bool)) (next : ℕ) : Stmt → List Site × ℕ
  | .simple s => (s.sites path, next)
  | .skip => ([], next)
  | .seq s t =>
    let (l, next) := s.sites path next
    let (m, next) := t.sites path next
    (l ++ m, next)
  | .ite (.const b) thenBlock elseBlock =>
    if b then thenBlock.sites path next else elseBlock.sites path next
  | .ite (.run _) thenBlock elseBlock =>
    let (l, next') := thenBlock.sites ((next, true) :: path) (next + 1)
    let (m, next') := elseBlock.sites ((next, false) :: path) next'
    (l ++ m, next')

structure Ramput where
  arr : Arr
  i : Scalars → ℕ
  guard : Guard

def Code.ramputs : Code → List Ramput
  | .ramput arr i _ guard => [⟨arr, i, guard⟩]
  | .seq p q | .mux _ p q => p.ramputs ++ q.ramputs
  | _ => []

/-- The store is executed for exactly the conditions that select it. -/
def Site.GuardedBy (conds : ℕ → Bool) (site : Site) (put : Ramput) : Prop :=
  put.arr = site.arr ∧ put.i = site.i ∧ (put.guard.Executed conds ↔ site.Selected conds)

/-- The stores of the program are emitted one by one, each with a right guard. -/
def GuardsCorrect (prog : Stmt) : Prop :=
  ∀ conds : ℕ → Bool, List.Forall₂ (Site.GuardedBy conds) (prog.sites [] 0).1
    (prog.expand .init).1.ramputs

/-! ## The emitted guards -/

/-- `getCondition` and `getBranch` on a stack of conditions. -/
def guardOf : List (ℕ × Bool) → Guard
  | [] => .always
  | (k, branch) :: _ => .cond k branch

theorem CState.guard_eq (cs : CState) : cs.guard = guardOf cs.conditions := by
  unfold CState.guard guardOf
  cases cs.conditions <;> rfl

theorem CState.enterElse_conditions {cs cs' : CState}
    (h : cs'.conditions = cs.enterThen.conditions) :
    (cs.enterElse cs').conditions = (cs.next, false) :: cs.conditions := by
  show (cs.next, false) :: cs'.conditions.tail = _
  rw [h]
  rfl

theorem CState.enterElse_next (cs cs' : CState) : (cs.enterElse cs').next = cs'.next := rfl

/-- The store of a site, with the guard of its innermost condition. -/
def Site.ramput (site : Site) : Ramput := ⟨site.arr, site.i, guardOf site.path⟩

/-- The code has no store at a run-time index and assigns no lvalue, and the conditions stay as they
are. -/
structure NoStores (cs : CState) (r : Code × CState) : Prop where
  ramputs : r.1.ramputs = []
  assigned : r.1.assigned = []
  conditions : r.2.conditions = cs.conditions
  next : r.2.next = cs.next

theorem noStores_expandEach {f : ℕ → CState → Code × CState}
    (hf : ∀ addr cs, NoStores cs (f addr cs))
    (addrs : List ℕ) (cs : CState) : NoStores cs (cs.expandEach f addrs) := by
  induction addrs generalizing cs with
  | nil => exact ⟨rfl, rfl, rfl, rfl⟩
  | cons addr rest ih =>
    have hfirst := hf addr cs
    have hrest := ih (f addr cs).2
    refine ⟨?_, ?_, hrest.conditions.trans hfirst.conditions, hrest.next.trans hfirst.next⟩
    · simp only [CState.expandEach, Code.ramputs, hfirst.ramputs, hrest.ramputs, List.append_nil]
    · simp only [CState.expandEach, Code.assigned, hfirst.assigned, hrest.assigned, List.append_nil]

theorem noStores_invalidateAll (addrs : List ℕ) (cs : CState) :
    NoStores cs (cs.invalidateAll addrs) := by
  refine noStores_expandEach (fun addr cs => ?_) addrs cs
  unfold CState.invalidateCache
  split
  · exact ⟨rfl, rfl, rfl, rfl⟩
  · refine ⟨?_, ?_, rfl, rfl⟩ <;> split <;> rfl

theorem noStores_evaluate (addr : ℕ) (cs : CState) : NoStores cs (cs.evaluate addr) := by
  unfold CState.evaluate
  split <;> exact ⟨rfl, rfl, rfl, rfl⟩

theorem Simple.expand_ramputs (s : Simple) (cs : CState) :
    (s.expand cs).1.ramputs = (s.sites cs.conditions).map Site.ramput ∧
      (s.expand cs).2.conditions = cs.conditions ∧ (s.expand cs).2.next = cs.next := by
  cases s with
  | assign | setConst => exact ⟨rfl, rfl, rfl⟩
  | getConst x addr =>
    simp only [Simple.expand]
    split
    · exact ⟨rfl, rfl, rfl⟩
    · exact ⟨rfl, rfl, rfl⟩
  | setDyn arr i e =>
    obtain ⟨hputs, -, hconds, hnext⟩ := noStores_invalidateAll arr.possibleAddresses cs
    refine ⟨?_, hconds, hnext⟩
    simp only [Simple.expand, Code.ramputs, hputs, CState.guard_eq, hconds]
    rfl
  | getDyn x arr i =>
    obtain ⟨hputs, -, hconds, hnext⟩ := noStores_invalidateAll arr.possibleAddresses cs
    refine ⟨?_, hconds, hnext⟩
    simp only [Simple.expand, Code.ramputs, hputs]
    rfl

/-- The code `r.1` has the stores of the sites `l.1` in the same order, and the state after it the
stack of conditions `conditions` and the next condition `l.2`. -/
structure Emitted (conditions : List (ℕ × Bool)) (l : List Site × ℕ)
    (r : Code × CState) : Prop where
  ramputs : r.1.ramputs = l.1.map Site.ramput
  conditions_eq : r.2.conditions = conditions
  next_eq : r.2.next = l.2

/-- Expanding a program leaves the stack of conditions as it was. -/
theorem Stmt.emitted (s : Stmt) (cs : CState) :
    Emitted cs.conditions (s.sites cs.conditions cs.next) (s.expand cs) := by
  induction s generalizing cs with
  | simple s =>
    obtain ⟨hputs, hconds, hnext⟩ := s.expand_ramputs cs
    exact ⟨hputs, hconds, hnext⟩
  | skip => exact ⟨rfl, rfl, rfl⟩
  | seq s t ihs iht =>
    have hs := ihs cs
    have ht := iht (s.expand cs).2
    rw [hs.conditions_eq, hs.next_eq] at ht
    refine ⟨?_, ht.conditions_eq, ht.next_eq⟩
    exact (congrArg₂ (· ++ ·) hs.ramputs ht.ramputs).trans List.map_append.symm
  | ite c s t ihs iht =>
    cases c with
    | const b =>
      cases b with
      | false => exact iht cs
      | true => exact ihs cs
    | run f =>
      have hs := ihs cs.enterThen
      have ht := iht (cs.enterElse (s.expand cs.enterThen).2)
      rw [CState.enterElse_conditions hs.conditions_eq, CState.enterElse_next, hs.next_eq] at ht
      have hmerge := noStores_expandEach noStores_evaluate
      refine ⟨?_, (hmerge _ _).conditions.trans (congrArg List.tail ht.conditions_eq),
        (hmerge _ _).next.trans ht.next_eq⟩
      simp only [Stmt.expand, Code.ramputs, (hmerge _ _).ramputs, List.append_nil, List.nil_append]
      exact (congrArg₂ (· ++ ·) hs.ramputs ht.ramputs).trans List.map_append.symm

/-! ## Stores in at most one `if` -/

/-- All conditions are known at run time only. -/
def Stmt.RunTime : Stmt → Prop
  | .simple _ | .skip => True
  | .seq s t => s.RunTime ∧ t.RunTime
  | .ite c s t => (∃ f, c = .run f) ∧ s.RunTime ∧ t.RunTime

/-- In a program that stands in `depth` conditionals, no store at a run-time index stands in more
than one. -/
def Stmt.StoresInOneIf (depth : ℕ) : Stmt → Prop
  | .simple (.setDyn ..) => depth ≤ 1
  | .simple _ | .skip => True
  | .seq s t => s.StoresInOneIf depth ∧ t.StoresInOneIf depth
  | .ite _ s t => s.StoresInOneIf (depth + 1) ∧ t.StoresInOneIf (depth + 1)

theorem Stmt.storesInOneIf_iff {s : Stmt} (hrun : s.RunTime) (path : List (ℕ × Bool)) (next : ℕ) :
    (∀ site ∈ (s.sites path next).1, site.path.length ≤ 1) ↔ s.StoresInOneIf path.length := by
  induction s generalizing path next with
  | simple s =>
    cases s with
    | setDyn arr i e => exact List.forall_mem_singleton
    | assign | setConst | getConst | getDyn => exact iff_of_true (List.forall_mem_nil _) trivial
  | skip => exact iff_of_true (List.forall_mem_nil _) trivial
  | seq s t ihs iht =>
    exact List.forall_mem_append.trans
      (and_congr (ihs hrun.1 path next) (iht hrun.2 path (s.sites path next).2))
  | ite c s t ihs iht =>
    obtain ⟨⟨f, rfl⟩, hs, ht⟩ := hrun
    exact List.forall_mem_append.trans (and_congr (ihs hs ((next, true) :: path) (next + 1))
      (iht ht ((next, false) :: path) (s.sites ((next, true) :: path) (next + 1)).2))

/-- The numbers of the conditions around a program whose next condition is `next`. -/
structure Numbered (path : List (ℕ × Bool)) (next : ℕ) : Prop where
  lt : ∀ p ∈ path, p.1 < next
  pairwise : path.Pairwise (·.1 > ·.1)

variable {path : List (ℕ × Bool)}

theorem Numbered.mono {next next' : ℕ} (h : Numbered path next) (hle : next ≤ next') :
    Numbered path next' :=
  ⟨fun p hp => (h.lt p hp).trans_le hle, h.pairwise⟩

theorem Numbered.push {next : ℕ} (h : Numbered path next) (b : Bool) :
    Numbered ((next, b) :: path) (next + 1) :=
  ⟨List.forall_mem_cons.2 ⟨Nat.lt_succ_self next, fun p hp => (h.lt p hp).trans
    (Nat.lt_succ_self _)⟩, List.pairwise_cons.2 ⟨h.lt, h.pairwise⟩⟩

/-- Inner conditions have greater numbers. -/
theorem Stmt.sites_pairwise (s : Stmt) {next : ℕ} (h : Numbered path next) :
    (∀ site ∈ (s.sites path next).1, site.path.Pairwise (·.1 > ·.1)) ∧
      next ≤ (s.sites path next).2 := by
  induction s generalizing path next with
  | simple s =>
    cases s with
    | setDyn arr i e => exact ⟨List.forall_mem_singleton.2 h.pairwise, le_rfl⟩
    | assign | setConst | getConst | getDyn => exact ⟨List.forall_mem_nil _, le_rfl⟩
  | skip => exact ⟨List.forall_mem_nil _, le_rfl⟩
  | seq s t ihs iht =>
    obtain ⟨hs, hle⟩ := ihs h
    obtain ⟨ht, hle'⟩ := iht (h.mono hle)
    exact ⟨List.forall_mem_append.2 ⟨hs, ht⟩, hle.trans hle'⟩
  | ite c s t ihs iht =>
    cases c with
    | const b =>
      cases b with
      | false => exact iht h
      | true => exact ihs h
    | run f =>
      obtain ⟨hs, hle⟩ := ihs (h.push true)
      obtain ⟨ht, hle'⟩ := iht ((h.push false).mono hle)
      exact ⟨List.forall_mem_append.2 ⟨hs, ht⟩, (Nat.le_succ next).trans (hle.trans hle')⟩

/-- The guard of the innermost condition is right if there is no other. -/
theorem guardOf_correct_iff (hpath : path.Pairwise (·.1 > ·.1)) :
    (∀ conds : ℕ → Bool, (guardOf path).Executed conds ↔ ∀ p ∈ path, conds p.1 = p.2) ↔
      path.length ≤ 1 := by
  match path with
  | [] => exact iff_of_true (fun _ => iff_of_true trivial (List.forall_mem_nil _)) (Nat.zero_le 1)
  | [(k, b)] =>
    refine iff_of_true (fun conds => ?_) le_rfl
    rw [List.forall_mem_singleton]
    rfl
  | (k, b) :: (k', b') :: rest =>
    have hne : k ≠ k' := ((List.pairwise_cons.1 hpath).1 (k', b') List.mem_cons_self).ne'
    refine iff_of_false (fun h => ?_) (by simp)
    -- the inner condition selects its branch, the next one does not
    have hsel := (h (Function.update (fun _ => b) k' (!b'))).1 (Function.update_of_ne hne _ _)
    have hout := hsel (k', b') (List.mem_cons_of_mem _ List.mem_cons_self)
    rw [Function.update_self] at hout
    exact absurd hout.symm (Bool.not_eq_not.2 rfl)

theorem guardsCorrect_iff_path (prog : Stmt) :
    GuardsCorrect prog ↔ ∀ site ∈ (prog.sites [] 0).1, site.path.length ≤ 1 := by
  have hputs : (prog.expand .init).1.ramputs = (prog.sites [] 0).1.map Site.ramput :=
    (prog.emitted .init).ramputs
  have hpath := (prog.sites_pairwise ⟨List.forall_mem_nil _, .nil⟩ : _ ∧
    (0 ≤ (prog.sites [] 0).2)).1
  unfold GuardsCorrect
  rw [hputs]
  simp only [List.forall₂_map_right_iff, List.forall₂_same]
  constructor
  · intro h site hsite
    exact (guardOf_correct_iff (hpath site hsite)).1 fun conds => (h conds site hsite).2.2
  · intro h conds site hsite
    exact ⟨rfl, rfl, (guardOf_correct_iff (hpath site hsite)).2 (h site hsite) conds⟩

/-- With run-time conditions, every store is executed for exactly the conditions that select it if
and only if no store stands in more than one `if`. -/
theorem guardsCorrect_iff {prog : Stmt} (hrun : prog.RunTime) :
    GuardsCorrect prog ↔ prog.StoresInOneIf 0 :=
  (guardsCorrect_iff_path prog).trans (prog.storesInOneIf_iff hrun [] 0)

/-- `if (x1) { a[x2] = 1; }`. -/
def innerStore : Stmt :=
  .ite (.run fun σ => σ 1 = 1)
    (.simple (.setDyn ⟨0, 2⟩ (fun σ => (σ 2).toNat) (.const 1))) .skip

theorem guardsCorrect_innerStore : innerStore.RunTime ∧ GuardsCorrect innerStore := by
  have hrun : innerStore.RunTime := ⟨⟨_, rfl⟩, trivial, trivial⟩
  exact ⟨hrun, (guardsCorrect_iff hrun).2 ⟨le_rfl, trivial⟩⟩

/-- `if (x0) { if (x1) { a[x2] = 1; } }`. -/
def nestedStore : Stmt := .ite (.run fun σ => σ 0 = 1) innerStore .skip

/-- With the outer condition false and the inner one true, the store is executed. -/
theorem nestedStore_executed :
    nestedStore.RunTime ∧ ∃ (conds : ℕ → Bool) (site : Site) (put : Ramput),
      conds 0 = false ∧ conds 1 = true ∧ (nestedStore.sites [] 0).1 = [site] ∧
        (nestedStore.expand .init).1.ramputs = [put] ∧ put.guard.Executed conds ∧
          ¬ site.Selected conds := by
  refine ⟨⟨⟨_, rfl⟩, ⟨⟨_, rfl⟩, trivial, trivial⟩, trivial⟩, fun k => k = 1, _, _, rfl, rfl, rfl,
    rfl, rfl, fun h => ?_⟩
  exact absurd (h (0, true) (by decide)) (by decide)

end Pequin.Frontend
