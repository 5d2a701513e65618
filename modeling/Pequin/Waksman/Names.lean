import Pequin.Lib.FirstMention
import Pequin.Waksman.Layout

/-!
# The order of the names

The switches of a network first name its inner wires in the order of `Network`: the wires of a
subnetwork that are wires of the level around it have been named before.
-/

namespace Pequin

open FirstMention

/-- The wire is named if it is an inner one. -/
def sourceNames (w : Wire) : List Wire := if w.isV then [w] else []

def targetNames (w : Wire) : List Wire := if w.isO then [] else [w]

theorem Switch.intermediate_eq (s : Switch) : s.intermediate =
    sourceNames s.s1 ++ (sourceNames s.s2 ++ (targetNames s.t1 ++ targetNames s.t2)) := by
  simp only [Switch.intermediate, sourceNames, targetNames, List.append_assoc]

section
variable {seen : List Wire} {w : Wire}

/-- An input of the network or a wire that has been named. -/
def SourceSeen (seen : List Wire) (w : Wire) : Prop := w.isV → w ∈ seen

def TargetSeen (seen : List Wire) (w : Wire) : Prop := ¬ w.isO → w ∈ seen

theorem SourceSeen.mentions (h : SourceSeen seen w) : Mentions seen (sourceNames w) [] := by
  refine mentions_of_subset fun x hx => ?_
  unfold sourceNames at hx
  split at hx
  · next hv => exact List.mem_singleton.mp hx ▸ h hv
  · cases hx

theorem TargetSeen.mentions (h : TargetSeen seen w) : Mentions seen (targetNames w) [] := by
  refine mentions_of_subset fun x hx => ?_
  unfold targetNames at hx
  split at hx
  · cases hx
  · next ho => exact List.mem_singleton.mp hx ▸ h ho

variable {l : List Wire}

theorem SourceSeen.mono (h : SourceSeen seen w) : SourceSeen (seen ++ l) w :=
  fun hv => List.mem_append_left l (h hv)

theorem TargetSeen.mono (h : TargetSeen seen w) : TargetSeen (seen ++ l) w :=
  fun ho => List.mem_append_left l (h ho)

theorem mentions_new {x : ℕ} (h : .V x ∉ seen) : Mentions seen [Wire.V x] [.V x] :=
  mentions_singleton h

theorem Switch.mentions {s : Switch} {new₁ new₂ new₃ new₄ : List Wire}
    (h₁ : Mentions seen (sourceNames s.s1) new₁)
    (h₂ : Mentions (seen ++ sourceNames s.s1) (sourceNames s.s2) new₂)
    (h₃ : Mentions (seen ++ sourceNames s.s1 ++ sourceNames s.s2) (targetNames s.t1) new₃)
    (h₄ : Mentions (seen ++ sourceNames s.s1 ++ sourceNames s.s2 ++ targetNames s.t1)
      (targetNames s.t2) new₄) :
    Mentions seen s.intermediate (new₁ ++ (new₂ ++ (new₃ ++ new₄))) := by
  rw [Switch.intermediate_eq]
  exact h₁.append (h₂.append (h₃.append h₄))

variable {a b : Wire} {e : SwitchEnd} {x y : ℕ}

theorem SourceSeen.not_mem (h : SourceSeen seen a) (hx : .V x ∉ seen) :
    .V x ∉ seen ++ sourceNames a := by
  rw [h.mentions.mem_append_iff]
  simpa using hx

/-- A switch on the left names the wires behind it. -/
theorem mentions_left (ha : SourceSeen seen a) (hb : SourceSeen seen b) (hx : .V x ∉ seen)
    (hy : .V y ∉ seen) (hxy : x ≠ y) :
    Mentions seen (Switch.intermediate ⟨a, b, .V x, .V y, e⟩) [.V x, .V y] := by
  have hb' := hb.mono (l := sourceNames a)
  refine Switch.mentions (s := ⟨a, b, .V x, .V y, e⟩) ha.mentions hb'.mentions
    (mentions_new (hb'.not_mem (ha.not_mem hx))) (mentions_new fun hmem => ?_)
  rcases List.mem_append.mp hmem with hmem | hmem
  · exact hb'.not_mem (ha.not_mem hy) hmem
  · cases List.mem_singleton.mp hmem
    exact hxy rfl

/-- A switch on the right names the wires before it. -/
theorem mentions_right (hx : .V x ∉ seen) (hy : .V y ∉ seen) (hxy : x ≠ y)
    (ha : TargetSeen seen a) (hb : TargetSeen seen b) :
    Mentions seen (Switch.intermediate ⟨.V x, .V y, a, b, e⟩) [.V x, .V y] := by
  refine Switch.mentions (s := ⟨.V x, .V y, a, b, e⟩) (mentions_new hx)
    (mentions_new fun hmem => ?_) ha.mono.mono.mentions hb.mono.mono.mono.mentions
  rcases List.mem_append.mp hmem with hmem | hmem
  · exact hy hmem
  · cases List.mem_singleton.mp hmem
    exact hxy rfl

theorem sourceSeen_of_mem (h : a ∈ seen) : SourceSeen seen a := fun _ => h

theorem targetSeen_of_mem (h : a ∈ seen) : TargetSeen seen a := fun _ => h

variable {ins outs node : ℕ → Wire} {n v s : ℕ}

/-- No inner wire from `v` on has been named. -/
def Fresh (seen : List Wire) (v : ℕ) : Prop := ∀ u, v ≤ u → .V u ∉ seen

theorem Fresh.append {new : List ℕ} {v' : ℕ} (hfresh : Fresh seen v) (hle : v ≤ v')
    (hl : Mentions seen l (new.map .V)) (hnew : ∀ u ∈ new, u < v') : Fresh (seen ++ l) v' := by
  intro u hu hmem
  rcases hl.mem_append_iff.mp hmem with hseen | hmem
  · exact hfresh u (by omega) hseen
  · obtain ⟨u', hu', he⟩ := List.mem_map.mp hmem
    cases he
    exact absurd (hnew u hu') (by omega)

theorem Fresh.append_range' {m : ℕ} (hfresh : Fresh seen v)
    (hl : Mentions seen l ((List.range' v m).map .V)) : Fresh (seen ++ l) (v + m) :=
  hfresh.append (Nat.le_add_right v m) hl fun u hu => by
    rw [List.mem_range'_1] at hu
    exact hu.2

/-- A list of switches that name two wires each. -/
theorem mentions_column {sw : ℕ → Switch} (c : ℕ) (hfresh : Fresh seen v)
    (hsw : ∀ k < c, ∀ l, Fresh (seen ++ l) (v + 2 * k) →
      Mentions (seen ++ l) (sw k).intermediate [.V (v + 2 * k), .V (v + (2 * k + 1))]) :
    Mentions seen (((List.range c).map sw).flatMap Switch.intermediate)
      ((List.range' v (2 * c)).map .V) := by
  induction c with
  | zero => exact mentions_of_subset (by simp)
  | succ c ih =>
    have hc := ih fun k hk => hsw k (by omega)
    rw [List.range_succ, List.map_append, List.flatMap_append, Nat.mul_succ, ← List.range'_append_1,
      List.map_append]
    refine hc.append ?_
    have hlast := hsw c (Nat.lt_succ_self c) _ (hfresh.append_range' hc)
    simpa [List.range'_succ, Nat.add_assoc] using hlast

theorem mentions_leftColumn (c : ℕ) (hfresh : Fresh seen v)
    (hins : ∀ i < 2 * c, SourceSeen seen (ins i)) :
    Mentions seen ((leftColumn c s v ins).flatMap Switch.intermediate)
      ((List.range' v (2 * c)).map .V) :=
  mentions_column c hfresh fun k hk _ hfresh =>
    mentions_left (hins _ (by omega)).mono (hins _ (by omega)).mono (hfresh _ (by omega))
      (hfresh _ (by omega)) (by omega)

theorem mentions_rightColumn (c : ℕ) (hfresh : Fresh seen v)
    (houts : ∀ i < 2 * c, TargetSeen seen (outs i)) :
    Mentions seen ((rightColumn c s v outs).flatMap Switch.intermediate)
      ((List.range' v (2 * c)).map .V) :=
  mentions_column c hfresh fun k hk _ hfresh =>
    mentions_right (hfresh _ (by omega)) (hfresh _ (by omega)) (by omega)
      (houts _ (by omega)).mono (houts _ (by omega)).mono

section
variable {c m w j : ℕ} (hl : Mentions seen l ((List.range' v m).map .V)) (hw : v ≤ w)
  (hm : w + 2 * c ≤ v + m)
include hl hw hm

/-- The wires next to the columns have been named when a level has been put out. -/
theorem mem_columnWire (hj : j < 2 * c) : columnWire c w node j ∈ seen ++ l := by
  rw [columnWire, if_pos hj, hl.mem_append_iff]
  refine .inr (List.mem_map_of_mem ?_)
  rw [List.mem_range'_1]
  omega

theorem sourceSeen_columnWire (hnode : SourceSeen seen (node j)) :
    SourceSeen (seen ++ l) (columnWire c w node j) := by
  by_cases hj : j < 2 * c
  · exact sourceSeen_of_mem (mem_columnWire hl hw hm hj)
  · rw [columnWire, if_neg hj]
    exact hnode.mono

theorem targetSeen_columnWire (hnode : TargetSeen seen (node j)) :
    TargetSeen (seen ++ l) (columnWire c w node j) := by
  by_cases hj : j < 2 * c
  · exact targetSeen_of_mem (mem_columnWire hl hw hm hj)
  · rw [columnWire, if_neg hj]
    exact hnode.mono

end

/-- The switches of a network of three. -/
theorem mentions_three (hins : ∀ i < 3, SourceSeen seen (ins i))
    (houts : ∀ i < 3, TargetSeen seen (outs i)) (hfresh : Fresh seen v) :
    Mentions seen (List.flatMap Switch.intermediate
      [⟨ins 0, ins 1, .V (v + 2), .V (v + 1), .T s⟩,
        ⟨.V (v + 2), .V (v + 3), outs 0, outs 1, .T (s + 1)⟩,
        ⟨.V (v + 1), ins 2, .V (v + 3), outs 2, .T (s + 2)⟩])
      (([v + 2, v + 1, v + 3] : List ℕ).map .V) := by
  have hleft := mentions_left (e := .T s) (hins 0 (by decide)) (hins 1 (by decide))
    (hfresh (v + 2) (by omega)) (hfresh (v + 1) (by omega)) (by omega)
  have hseen₂ : .V (v + 2) ∈ seen ++ Switch.intermediate
      ⟨ins 0, ins 1, .V (v + 2), .V (v + 1), .T s⟩ := hleft.mem_append_iff.mpr (.inr (by simp))
  have hseen₁ : .V (v + 1) ∈ seen ++ Switch.intermediate
      ⟨ins 0, ins 1, .V (v + 2), .V (v + 1), .T s⟩ := hleft.mem_append_iff.mpr (.inr (by simp))
  have hnew : .V (v + 3) ∉ seen ++ Switch.intermediate
      ⟨ins 0, ins 1, .V (v + 2), .V (v + 1), .T s⟩ := by
    rw [hleft.mem_append_iff]
    simpa using hfresh (v + 3) (by omega)
  have hright := Switch.mentions (s := ⟨.V (v + 2), .V (v + 3), outs 0, outs 1, .T (s + 1)⟩)
    (sourceSeen_of_mem hseen₂).mentions
    (mentions_new ((sourceSeen_of_mem hseen₂).not_mem hnew))
    (houts 0 (by decide)).mono.mono.mono.mentions (houts 1 (by decide)).mono.mono.mono.mono.mentions
  have hseen₃ := hright.mem_append_iff.mpr (.inr (by simp) : _ ∨ Wire.V (v + 3) ∈ _)
  have hbot := Switch.mentions (s := ⟨.V (v + 1), ins 2, .V (v + 3), outs 2, .T (s + 2)⟩)
    (sourceSeen_of_mem (List.mem_append_left _ hseen₁)).mentions
    (hins 2 (by decide)).mono.mono.mono.mentions (targetSeen_of_mem hseen₃).mono.mono.mentions
    (houts 2 (by decide)).mono.mono.mono.mono.mono.mentions
  have hall := hleft.append (hright.append (hbot.append (mentions_of_subset (l := []) (by simp))))
  simpa using hall

end

/-- What the switches of a network name. -/
theorem Network.mentions {n v v' s : ℕ} {ins outs : ℕ → Wire} {sws : List Switch} {vars : List ℕ}
    (h : Network n v s ins outs v' sws vars) {seen : List Wire}
    (hins : ∀ i < n, SourceSeen seen (ins i)) (houts : ∀ i < n, TargetSeen seen (outs i))
    (hfresh : Fresh seen v) :
    Mentions seen (sws.flatMap Switch.intermediate) (vars.map .V) ∧ v ≤ v' ∧
      ∀ u ∈ vars, u < v' := by
  induction h generalizing seen with
  | two v s ins outs =>
    refine ⟨?_, le_rfl, by simp⟩
    rw [List.flatMap_singleton]
    exact Switch.mentions (s := ⟨ins 0, ins 1, outs 0, outs 1, .T s⟩) (hins 0 two_pos).mentions
      (hins 1 one_lt_two).mono.mentions (houts 0 two_pos).mono.mono.mentions
      (houts 1 one_lt_two).mono.mono.mono.mentions
  | three v s ins outs =>
    refine ⟨mentions_three hins houts hfresh, Nat.le_add_right v 4, fun u hu => ?_⟩
    simp only [List.mem_cons, List.not_mem_nil, or_false] at hu
    omega
  | @step n v v₁ v₂ s ins outs top bot topVars botVars hn htop hbot ihtop ihbot =>
    have hcount := switchCount_eq n (by omega)
    have hleft := mentions_leftColumn (s := s) (n / 2) hfresh fun i hi => hins i (by omega)
    have hright := mentions_rightColumn (s := s + n / 2) (rightSwitchCount n)
      (hfresh.append_range' hleft) fun i hi => (houts i (by omega)).mono
    have hlevel := hleft.append hright
    rw [← List.map_append, List.range'_append_1,
      show 2 * (n / 2) + 2 * rightSwitchCount n = 2 * (n - 1) by omega] at hlevel
    have hsource : ∀ j < n, SourceSeen _ (columnWire (n / 2) v ins j) := fun j hj =>
      sourceSeen_columnWire hlevel le_rfl (by omega) (hins j hj)
    have htarget : ∀ j < n, TargetSeen _
        (columnWire (rightSwitchCount n) (v + 2 * (n / 2)) outs j) := fun j hj =>
      targetSeen_columnWire hlevel (by omega) (by omega) (houts j hj)
    have hbotIndex : ∀ k, botIndex n k < n := fun k => by
      unfold botIndex
      omega
    have hfresh' := hfresh.append_range' hlevel
    obtain ⟨hmtop, hle₁, hlt₁⟩ := ihtop (fun k hk => hsource _ (by omega))
      (fun k hk => htarget _ (by omega)) hfresh'
    obtain ⟨hmbot, hle₂, hlt₂⟩ := ihbot (fun k _ => (hsource _ (hbotIndex k)).mono)
      (fun k _ => (htarget _ (hbotIndex k)).mono) (hfresh'.append hle₁ hmtop hlt₁)
    refine ⟨?_, by omega, fun u hu => ?_⟩
    · have hall := hlevel.append (hmtop.append hmbot)
      simpa only [List.flatMap_append, List.map_append, List.append_assoc] using hall
    · simp only [List.mem_append, List.mem_range'_1] at hu
      rcases hu with hu | hu | hu
      · omega
      · exact (hlt₁ u hu).trans_le hle₂
      · exact hlt₂ u hu

end Pequin
