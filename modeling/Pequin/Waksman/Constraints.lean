import Pequin.Ram.Soundness
import Pequin.Waksman.Network

/-!
# The constraints of the permutation network

The lines of a switch are written inside the branch for two inner sources, so that no switch next to
an input is constrained. An assignment that gives every inner wire and every output one and the same
tuple satisfies all lines, whatever the inputs are.
-/

namespace Pequin

def inputVars (input : List (MemOp (Arg Name))) : List Name :=
  input.flatMap fun op => vartypes.flatMap fun k => (op.get k).vars

/-- Wires and switches of the network are not variables of the input tuples. -/
structure InputsOutside (input : List (MemOp (Arg Name))) : Prop where
  wire : ∀ w k, Name.wire w k ∉ inputVars input
  switch : ∀ e : SwitchEnd, e.name ∉ inputVars input

/-- Every assignment with the inputs of `ρ` that satisfies the constraints of the network has a
permutation of the input tuples on the outputs. -/
def NetworkSound {p : ℕ} (width : ℕ) (input : List (MemOp (Arg Name))) (ρ : Name → ZMod p) : Prop :=
  ∀ z : Name → ZMod p, (∀ x ∈ inputVars input, z x = ρ x) →
    Satisfies z (waksmanNetworkAsBasicConstraints input width) →
    OutputsPermute z width (input.map (MemOp.map (Arg.eval z)))

/-- The assignment with the inputs of `ρ`, the tuple `c` on every wire and every switch off. -/
def constantWires {R : Type} [Zero R] (input : List (MemOp (Arg Name))) (ρ : Name → R) (c : MemOp R)
    (o : Name) : R :=
  if o ∈ inputVars input then ρ o
  else
    match o with
    | .wire _ k => c.get k
    | _ => 0

section
variable {R : Type} [CommRing R] {input : List (MemOp (Arg Name))} {ρ : Name → R} {c : MemOp R}

theorem constantWires_input {x : Name} (hx : x ∈ inputVars input) :
    constantWires input ρ c x = ρ x := if_pos hx

theorem map_input_constantWires {op : MemOp (Arg Name)} (hop : op ∈ input) :
    op.map (Arg.eval (constantWires input ρ c)) = op.map (Arg.eval ρ) := by
  have hget : ∀ k ∈ vartypes, (op.get k).eval (constantWires input ρ c) = (op.get k).eval ρ :=
    fun k hk => (op.get k).eval_congr fun x hx => constantWires_input
      (List.mem_flatMap.mpr ⟨op, hop, List.mem_flatMap.mpr ⟨k, hk, hx⟩⟩)
  simp only [vartypes, List.forall_mem_cons] at hget
  obtain ⟨haddr, hts, htype, hvalue, -⟩ := hget
  simp only [MemOp.get] at haddr hts htype hvalue
  simp only [MemOp.map, haddr, hts, htype, hvalue]

variable (hout : InputsOutside input)
include hout

theorem constantWires_wire (w : Wire) (k : VarType) :
    constantWires input ρ c (.wire w k) = c.get k := by
  rw [constantWires, if_neg (hout.wire w k)]

theorem constantWires_switch (e : SwitchEnd) :
    constantWires input ρ c e.name = 0 := by
  have h := hout.switch e
  cases e with
  | T i => exact if_neg h
  | B i => exact if_neg h

/-- A line is written for two inner sources only, and then holds. -/
theorem satisfies_genWaksmanSwitch (s : Switch) (k : VarType) :
    Satisfies (constantWires input ρ c) (genWaksmanSwitch input s k) := by
  have hlines : Satisfies (constantWires input ρ c)
      [switchLine (.var (.wire s.s1 k)) (.var (.wire s.s2 k)) (.var s.sw.name)
        (.var (.wire s.t1 k)),
       switchLine (.var (.wire s.s2 k)) (.var (.wire s.s1 k)) (.var s.sw.name)
        (.var (.wire s.t2 k)),
       ⟨some ((Arg.const 1).sum.sub (.var s.sw.name)), some (Arg.var s.sw.name).sum,
         some ((Arg.const 0).sum.sub (.const 0))⟩] := by
    simp [switchLine, constantWires_wire hout, constantWires_switch hout]
  rcases s with ⟨s1, s2, t1, t2, sw⟩
  cases s1 with
  | I i => exact satisfies_nil _
  | V i | O i =>
    cases s2 with
    | I j => exact satisfies_nil _
    | V j | O j => exact hlines

theorem satisfies_constantWires (width : ℕ) :
    Satisfies (constantWires input ρ c) (waksmanNetworkAsBasicConstraints input width) := by
  simp only [waksmanNetworkAsBasicConstraints, satisfies_flatMap]
  exact fun s _ k _ => satisfies_genWaksmanSwitch hout s k

theorem map_output_constantWires (i : ℕ) :
    (output i).map (constantWires input ρ c) = c := by
  simp only [MemOp.map, output, constantWires_wire hout]
  rfl

end

section
variable {p : ℕ} [Fact p.Prime] {width : ℕ} {input : List (MemOp (Arg Name))}

/-- All outputs can be a tuple that differs from the first input. -/
theorem not_networkSound (hwidth : 0 < width) (hlen : input.length = width)
    (hout : InputsOutside input) (ρ : Name → ZMod p) : ¬ NetworkSound width input ρ := by
  intro hsound
  obtain ⟨op, ops, rfl⟩ := List.exists_cons_of_length_pos (hlen ▸ hwidth)
  let c : MemOp (ZMod p) := (op.map (Arg.eval ρ)).map (· + 1)
  have hperm := hsound (constantWires (op :: ops) ρ c) (fun x hx => constantWires_input hx)
    (satisfies_constantWires hout width)
  have hmem : op.map (Arg.eval (constantWires (op :: ops) ρ c)) ∈
      (List.range width).map fun i => (output i).map (constantWires (op :: ops) ρ c) :=
    hperm.mem_iff.mpr (List.mem_map_of_mem List.mem_cons_self)
  obtain ⟨i, -, hi⟩ := List.mem_map.mp hmem
  rw [map_output_constantWires hout, map_input_constantWires List.mem_cons_self] at hi
  have haddr : op.addr.eval ρ + 1 = op.addr.eval ρ := congrArg MemOp.addr hi
  exact one_ne_zero (add_eq_left.mp haddr)

/-- The constraints are not sound for any width and any inputs. -/
theorem waksmanNetwork_never_sound (hwidth : 2 ≤ width) (hlen : input.length = width)
    (hout : InputsOutside input) (ρ : Name → ZMod p) : ¬ NetworkSound width input ρ :=
  not_networkSound (by omega) hlen hout ρ

end

def twoStores : List (MemOp (Arg Name)) :=
  [⟨.const 0, .const 0, .const 1, .const 5⟩, ⟨.const 1, .const 1, .const 1, .const 6⟩]

def threeStores : List (MemOp (Arg Name)) := ⟨.const 0, .const 2, .const 1, .const 7⟩ :: twoStores

theorem threeStores_outside : InputsOutside threeStores :=
  ⟨fun _ _ => by simp [inputVars, threeStores, twoStores, vartypes, MemOp.get],
    fun _ => by simp [inputVars, threeStores, twoStores, vartypes, MemOp.get]⟩

theorem twoStores_outside : InputsOutside twoStores :=
  ⟨fun _ _ => by simp [inputVars, twoStores, vartypes, MemOp.get],
    fun _ => by simp [inputVars, twoStores, vartypes, MemOp.get]⟩

theorem waksmanNetwork_never_sound_three : ¬ NetworkSound (p := 7) 3 threeStores (fun _ => 0) :=
  have : Fact (Nat.Prime 7) := ⟨by norm_num⟩
  waksmanNetwork_never_sound (by decide) rfl threeStores_outside _

theorem waksmanNetwork_two_unsound : ¬ NetworkSound (p := 11) 2 twoStores (fun _ => 0) :=
  have : Fact (Nat.Prime 11) := ⟨by norm_num⟩
  not_networkSound Nat.two_pos rfl twoStores_outside _

end Pequin
