import Pequin.Waksman.Flow

/-!
# The layout of the network

`buildwak` puts out the switches of a level and then those of its subnetworks, and numbers the wires
as it meets them. `Network` describes the switches of a network between given wires, together with
the inner wires in the order in which the switches first name them: this is the order in which the
router fills its array, so a flow through the network satisfies the equations of every switch.
-/

namespace Pequin

/-! ## One column -/

/-- The end of a switch at the wire `j`. -/
def switchEnd (s j : ℕ) : SwitchEnd := if j % 2 = 0 then .T (s + j / 2) else .B (s + j / 2)

theorem mkSwitches_eq (c : ℕ) (w : Wak) :
    mkSwitches c w = ((List.range (2 * c)).map (switchEnd w.swc), { w with swc := w.swc + c }) := by
  unfold mkSwitches
  congr 1
  induction c with
  | zero => rfl
  | succ c ih =>
    rw [List.range_succ, List.flatMap_append, ih, Nat.mul_succ, List.range_add, List.map_append]
    simp [switchEnd, List.range_succ, Nat.add_mod, Nat.add_div]

/-- The switches next to the first wires, and links next to the others. -/
theorem zip_switches (n c : ℕ) (hc : 2 * c ≤ n) (node : ℕ → Wire) (s : ℕ) :
    ((List.range n).map node).zip
        (((List.range (2 * c)).map (switchEnd s)).map some ++ List.replicate (n - 2 * c) none) =
      (List.range n).map fun j => (node j, if j < 2 * c then some (switchEnd s j) else none) := by
  have hsw : ((List.range (2 * c)).map (switchEnd s)).map some ++ List.replicate (n - 2 * c) none =
      (List.range n).map fun j => if j < 2 * c then some (switchEnd s j) else none := by
    obtain ⟨d, rfl⟩ := Nat.exists_eq_add_of_le hc
    rw [List.range_add, List.map_append, List.map_map, List.map_map, Nat.add_sub_cancel_left]
    refine congrArg₂ _ (List.map_congr_left fun j hj => ?_) ?_
    · exact (if_pos (List.mem_range.mp hj)).symm
    · symm
      simp [List.eq_replicate_iff]
  rw [hsw, List.zip_map']

/-- The wire behind the wire `j` of a column with `c` switches. -/
def columnWire (c v : ℕ) (node : ℕ → Wire) (j : ℕ) : Wire :=
  if j < 2 * c then .V (v + j) else node j

section
variable (hook : Wire → SwitchEnd → Wire → Hook) (n c s v : ℕ) (node : ℕ → Wire)

theorem Column.step_eq (i : ℕ) (col : Column) (hv : col.wak.varct = v + min i (2 * c)) :
    col.step hook n i (node i) (if i < 2 * c then some (switchEnd s i) else none) =
      { wak :=
          { swc := col.wak.swc
            varct := v + min (i + 1) (2 * c)
            hooked := col.wak.hooked ++
              if i < 2 * c then [hook (node i) (switchEnd s i) (.V (v + i))] else [] }
        top := col.top ++ if goesBottom n i then [] else [columnWire c v node i]
        bot := col.bot ++ if goesBottom n i then [columnWire c v node i] else [] } := by
  unfold Column.step columnWire
  by_cases hi : i < 2 * c
  · have hvar : col.wak.varct = v + i := by omega
    cases hb : goesBottom n i <;> simp [hi, hvar, Nat.add_assoc]
  · have hmin : v + min (i + 1) (2 * c) = v + min i (2 * c) := by omega
    cases hb : goesBottom n i <;> simp [hi, ← hv, hmin]

/-- What the loop over the wires from `i` on has put out after `m` of them. -/
theorem Column.loop_eq (m i : ℕ) (col : Column) (hv : col.wak.varct = v + min i (2 * c)) :
    Column.loop hook n i ((List.range' i m).map fun j =>
        (node j, if j < 2 * c then some (switchEnd s j) else none)) col =
      { wak :=
          { swc := col.wak.swc
            varct := v + min (i + m) (2 * c)
            hooked := col.wak.hooked ++ ((List.range' i m).filter (· < 2 * c)).map fun j =>
              hook (node j) (switchEnd s j) (.V (v + j)) }
        top := col.top ++ ((List.range' i m).filter fun j => !goesBottom n j).map
          (columnWire c v node)
        bot := col.bot ++ ((List.range' i m).filter (goesBottom n)).map
          (columnWire c v node) } := by
  induction m generalizing i col with
  | zero => simp [Column.loop, ← hv]
  | succ m ih =>
    rw [List.range'_succ, List.map_cons, Column.loop, Column.step_eq hook n c s v node i col hv,
      ih (i + 1) _ rfl, show i + 1 + m = i + (m + 1) by omega]
    by_cases hi : i < 2 * c <;> cases hb : goesBottom n i <;> simp [hi, hb]

end

/-! ## The wires of the subnetworks -/

theorem filter_even (m : ℕ) : ((List.range (2 * m)).filter fun j => !decide (j % 2 = 1)) =
    (List.range m).map fun k => 2 * k := by
  induction m with
  | zero => rfl
  | succ m ih =>
    rw [Nat.mul_succ, List.range_add, List.filter_append, ih, List.range_succ, List.map_append]
    simp [List.range_succ, Nat.add_mod]

theorem filter_odd (m : ℕ) : ((List.range (2 * m)).filter fun j => decide (j % 2 = 1)) =
    (List.range m).map fun k => 2 * k + 1 := by
  induction m with
  | zero => rfl
  | succ m ih =>
    rw [Nat.mul_succ, List.range_add, List.filter_append, ih, List.range_succ, List.map_append]
    simp [List.range_succ, Nat.add_mod]

theorem goesBottom_of_lt {n m j : ℕ} (hn : n = 2 * m ∨ n = 2 * m + 1) (h : j < 2 * m) :
    goesBottom n j = decide (j % 2 = 1) := by
  have hlast : ¬ (n % 2 = 1 ∧ j = n - 1) := by omega
  simp [goesBottom, hlast]

theorem goesBottom_last (m : ℕ) : goesBottom (2 * m + 1) (2 * m) = true := by
  simp [goesBottom]

theorem filter_top (n : ℕ) :
    ((List.range n).filter fun j => !goesBottom n j) = (List.range (n / 2)).map fun k => 2 * k := by
  obtain ⟨m, rfl | rfl⟩ := Nat.even_or_odd' n
  · rw [Nat.mul_div_cancel_left m two_pos, ← filter_even]
    refine List.filter_congr fun j hj => ?_
    rw [goesBottom_of_lt (.inl rfl) (List.mem_range.mp hj)]
  · rw [show (2 * m + 1) / 2 = m by omega, ← filter_even, List.range_succ, List.filter_append,
      List.filter_singleton, goesBottom_last, Bool.not_true, cond_false, List.append_nil]
    refine List.filter_congr fun j hj => ?_
    rw [goesBottom_of_lt (.inr rfl) (List.mem_range.mp hj)]

theorem filter_bot (n : ℕ) :
    (List.range n).filter (goesBottom n) = (List.range ((n + 1) / 2)).map (botIndex n) := by
  obtain ⟨m, rfl | rfl⟩ := Nat.even_or_odd' n
  · rw [show (2 * m + 1) / 2 = m by omega]
    calc (List.range (2 * m)).filter (goesBottom (2 * m))
        = (List.range (2 * m)).filter fun j => decide (j % 2 = 1) :=
          List.filter_congr fun j hj => goesBottom_of_lt (.inl rfl) (List.mem_range.mp hj)
      _ = (List.range m).map fun k => 2 * k + 1 := filter_odd m
      _ = (List.range m).map (botIndex (2 * m)) := List.map_congr_left fun k hk => by
          have := List.mem_range.mp hk
          unfold botIndex
          omega
  · rw [show (2 * m + 1 + 1) / 2 = m + 1 by omega, List.range_succ, List.range_succ,
      List.filter_append, List.filter_singleton, goesBottom_last, cond_true, List.map_append]
    refine congrArg₂ _ ?_ (by simp [botIndex])
    calc (List.range (2 * m)).filter (goesBottom (2 * m + 1))
        = (List.range (2 * m)).filter fun j => decide (j % 2 = 1) :=
          List.filter_congr fun j hj => goesBottom_of_lt (.inr rfl) (List.mem_range.mp hj)
      _ = (List.range m).map fun k => 2 * k + 1 := filter_odd m
      _ = (List.range m).map (botIndex (2 * m + 1)) := List.map_congr_left fun k hk => by
          have := List.mem_range.mp hk
          unfold botIndex
          omega

/-- One column of `c` switches from `s` on. -/
theorem column_eq (hook : Wire → SwitchEnd → Wire → Hook) (n c s : ℕ) (hc : 2 * c ≤ n)
    (node : ℕ → Wire) (w : Wak) :
    Column.loop hook n 0 (((List.range n).map node).zip
        (((List.range (2 * c)).map (switchEnd s)).map some ++ List.replicate (n - 2 * c) none))
        ⟨w, [], []⟩ =
      { wak :=
          { swc := w.swc
            varct := w.varct + 2 * c
            hooked := w.hooked ++ (List.range (2 * c)).map fun j =>
              hook (node j) (switchEnd s j) (.V (w.varct + j)) }
        top := (List.range (n / 2)).map fun k => columnWire c w.varct node (2 * k)
        bot := (List.range ((n + 1) / 2)).map fun k => columnWire c w.varct node
          (botIndex n k) } := by
  have hfilter : (List.range n).filter (· < 2 * c) = List.range (2 * c) := by
    obtain ⟨d, rfl⟩ := Nat.exists_eq_add_of_le hc
    rw [List.range_add, List.filter_append, List.filter_eq_self.mpr, List.filter_eq_nil_iff.mpr,
      List.append_nil]
    · simp
    · simp
  rw [zip_switches n c hc, List.range_eq_range',
    Column.loop_eq hook n c s w.varct node n 0 ⟨w, [], []⟩ (by simp), ← List.range_eq_range',
    hfilter, filter_top, filter_bot, List.map_map, List.map_map, Nat.zero_add, min_eq_right hc]
  rfl

/-! ## The switches of a network -/

/-- The hooks of both ends of a list of switches. -/
def Switch.hooks (s : Switch) : List Hook :=
  match s.sw with
  | .T i | .B i => [⟨s.s1, .T i, s.t1⟩, ⟨s.s2, .B i, s.t2⟩]

/-- The switches on the left from the wires `node`. -/
def leftColumn (c s v : ℕ) (node : ℕ → Wire) : List Switch :=
  (List.range c).map fun k =>
    ⟨node (2 * k), node (2 * k + 1), .V (v + 2 * k), .V (v + (2 * k + 1)), .T (s + k)⟩

/-- The switches on the right to the wires `node`. -/
def rightColumn (c s v : ℕ) (node : ℕ → Wire) : List Switch :=
  (List.range c).map fun k =>
    ⟨.V (v + 2 * k), .V (v + (2 * k + 1)), node (2 * k), node (2 * k + 1), .T (s + k)⟩

/-- The switches `sws` of a network of size `n` between `ins` and `outs`, with switches from `s` and
wires from `v` to `v'` on. `vars` are the inner wires in the order in which they are named. -/
inductive Network : ℕ → ℕ → ℕ → (ℕ → Wire) → (ℕ → Wire) → ℕ → List Switch → List ℕ → Prop
  | two (v s : ℕ) (ins outs : ℕ → Wire) :
    Network 2 v s ins outs v [⟨ins 0, ins 1, outs 0, outs 1, .T s⟩] []
  /-- The upper subnetwork is a single wire, which is the source of the switch on the right. -/
  | three (v s : ℕ) (ins outs : ℕ → Wire) :
    Network 3 v s ins outs (v + 4)
      [⟨ins 0, ins 1, .V (v + 2), .V (v + 1), .T s⟩,
        ⟨.V (v + 2), .V (v + 3), outs 0, outs 1, .T (s + 1)⟩,
        ⟨.V (v + 1), ins 2, .V (v + 3), outs 2, .T (s + 2)⟩] [v + 2, v + 1, v + 3]
  | step {n v v₁ v₂ s : ℕ} {ins outs : ℕ → Wire} {top bot : List Switch} {topVars botVars : List ℕ}
    (hn : 4 ≤ n)
    (htop : Network (n / 2) (v + 2 * (n - 1)) (s + (n - 1))
      (fun k => columnWire (n / 2) v ins (2 * k))
      (fun k => columnWire (rightSwitchCount n) (v + 2 * (n / 2)) outs (2 * k)) v₁ top topVars)
    (hbot : Network ((n + 1) / 2) v₁ (s + (n - 1) + numSwitches (n / 2))
      (fun k => columnWire (n / 2) v ins (botIndex n k))
      (fun k => columnWire (rightSwitchCount n) (v + 2 * (n / 2)) outs (botIndex n k)) v₂ bot
      botVars) :
    Network n v s ins outs v₂
      (leftColumn (n / 2) s v ins ++
        (rightColumn (rightSwitchCount n) (s + n / 2) (v + 2 * (n / 2)) outs ++ (top ++ bot)))
      (List.range' v (2 * (n - 1)) ++ (topVars ++ botVars))

theorem flatMap_hooks {sw : ℕ → Switch} {h : ℕ → Hook}
    (hsw : ∀ k, (sw k).hooks = [h (2 * k), h (2 * k + 1)]) (c : ℕ) :
    ((List.range c).map sw).flatMap Switch.hooks = (List.range (2 * c)).map h := by
  induction c with
  | zero => rfl
  | succ c ih =>
    rw [List.range_succ, List.map_append, List.flatMap_append, ih, Nat.mul_succ, List.range_add,
      List.map_append]
    simp [hsw, List.range_succ]

theorem switchEnd_even (s k : ℕ) : switchEnd s (2 * k) = .T (s + k) := by
  simp [switchEnd]

theorem switchEnd_odd (s k : ℕ) : switchEnd s (2 * k + 1) = .B (s + k) := by
  simp [switchEnd, Nat.add_mod, Nat.add_div]

theorem leftColumn_hooks (c s v : ℕ) (node : ℕ → Wire) :
    (leftColumn c s v node).flatMap Switch.hooks =
      (List.range (2 * c)).map fun j => leftHook (node j) (switchEnd s j) (.V (v + j)) :=
  flatMap_hooks (fun k => by rw [switchEnd_even, switchEnd_odd]; rfl) c

theorem rightColumn_hooks (c s v : ℕ) (node : ℕ → Wire) :
    (rightColumn c s v node).flatMap Switch.hooks =
      (List.range (2 * c)).map fun j => rightHook (node j) (switchEnd s j) (.V (v + j)) :=
  flatMap_hooks (fun k => by rw [switchEnd_even, switchEnd_odd]; rfl) c

/-- The level of `buildwak`. -/
theorem buildwak_eq {n : ℕ} (hn : 3 ≤ n) (w : Wak) (ins outs : ℕ → Wire) :
    buildwak w ((List.range n).map ins) ((List.range n).map outs) n =
      buildwak
        (buildwak
          ⟨w.swc + (n - 1), w.varct + 2 * (n - 1), w.hooked ++
            (leftColumn (n / 2) w.swc w.varct ins ++ rightColumn (rightSwitchCount n)
              (w.swc + n / 2) (w.varct + 2 * (n / 2)) outs).flatMap Switch.hooks⟩
          ((List.range (n / 2)).map fun k => columnWire (n / 2) w.varct ins (2 * k))
          ((List.range (n / 2)).map fun k =>
            columnWire (rightSwitchCount n) (w.varct + 2 * (n / 2)) outs (2 * k)) (n / 2))
        ((List.range ((n + 1) / 2)).map fun k => columnWire (n / 2) w.varct ins (botIndex n k))
        ((List.range ((n + 1) / 2)).map fun k =>
          columnWire (rightSwitchCount n) (w.varct + 2 * (n / 2)) outs (botIndex n k))
        ((n + 1) / 2) := by
  have hcount := switchCount_eq n (by omega)
  have hleft : (if n % 2 = 1 then [none] else [] : List (Option SwitchEnd)) =
      List.replicate (n - 2 * (n / 2)) none := by
    split
    · rw [show n - 2 * (n / 2) = 1 by omega, List.replicate_one]
    · rw [show n - 2 * (n / 2) = 0 by omega, List.replicate_zero]
  have hright : (if n % 2 = 1 then [none] else [none, none] : List (Option SwitchEnd)) =
      List.replicate (n - 2 * rightSwitchCount n) none := by
    split
    · rw [show n - 2 * rightSwitchCount n = 1 by omega, List.replicate_one]
    · rw [show n - 2 * rightSwitchCount n = 2 by omega]
      rfl
  obtain ⟨m, rfl⟩ := Nat.exists_eq_add_of_le' hn
  rw [buildwak]
  simp only [mkSwitches_eq, hleft, hright]
  rw [column_eq leftHook (m + 3) ((m + 3) / 2) w.swc (by omega)]
  simp only
  rw [column_eq rightHook (m + 3) (rightSwitchCount (m + 3)) (w.swc + (m + 3) / 2) (by omega)]
  simp only [List.flatMap_append, leftColumn_hooks, rightColumn_hooks, List.append_assoc,
    show w.swc + (m + 3) / 2 + rightSwitchCount (m + 3) = w.swc + (m + 3 - 1) by omega,
    show w.varct + 2 * ((m + 3) / 2) + 2 * rightSwitchCount (m + 3) = w.varct + 2 * (m + 3 - 1) by
      omega]

theorem buildwak_two (w : Wak) (ins outs : ℕ → Wire) :
    buildwak w ((List.range 2).map ins) ((List.range 2).map outs) 2 =
      ⟨w.swc + 1, w.varct, w.hooked ++
        Switch.hooks ⟨ins 0, ins 1, outs 0, outs 1, .T w.swc⟩⟩ := by
  simp [buildwak, mkSwitches_eq, List.range_succ, switchEnd, Switch.hooks]

theorem patch_append (s v : ℕ) (hooked : List Hook) (h4 h3 h2 h1 : Hook) :
    Wak.patch ⟨s, v, hooked ++ [h4, h3, h2, h1]⟩ =
      ⟨s, v, hooked ++ [{ h4 with target := h2.source }, h3, h2, h1]⟩ := by
  simp [Wak.patch]

theorem buildwak_three (w : Wak) (ins outs : ℕ → Wire) :
    buildwak w ((List.range 3).map ins) ((List.range 3).map outs) 3 =
      ⟨w.swc + 3, w.varct + 4, w.hooked ++ List.flatMap Switch.hooks
        [⟨ins 0, ins 1, .V (w.varct + 2), .V (w.varct + 1), .T w.swc⟩,
          ⟨.V (w.varct + 2), .V (w.varct + 3), outs 0, outs 1, .T (w.swc + 1)⟩,
          ⟨.V (w.varct + 1), ins 2, .V (w.varct + 3), outs 2, .T (w.swc + 2)⟩]⟩ := by
  have hhooks : (leftColumn (3 / 2) w.swc w.varct ins ++ rightColumn (rightSwitchCount 3)
      (w.swc + 3 / 2) (w.varct + 2 * (3 / 2)) outs).flatMap Switch.hooks =
      [⟨ins 0, .T w.swc, .V w.varct⟩, ⟨ins 1, .B w.swc, .V (w.varct + 1)⟩,
        ⟨.V (w.varct + 2), .T (w.swc + 1), outs 0⟩, ⟨.V (w.varct + 3), .B (w.swc + 1), outs 1⟩] :=
          rfl
  rw [buildwak_eq (le_refl 3), hhooks, show 3 / 2 = 1 from rfl, show (3 + 1) / 2 = 2 from rfl,
    buildwak, patch_append, buildwak_two]
  simp [Switch.hooks, columnWire, botIndex, rightSwitchCount]

/-- What `buildwak` puts out. -/
theorem exists_network {n : ℕ} (hn : 2 ≤ n) (w : Wak) (ins outs : ℕ → Wire) :
    ∃ v sws vars, Network n w.varct w.swc ins outs v sws vars ∧
      buildwak w ((List.range n).map ins) ((List.range n).map outs) n =
        ⟨w.swc + numSwitches n, v, w.hooked ++ sws.flatMap Switch.hooks⟩ := by
  induction n using Nat.strong_induction_on generalizing w ins outs with
  | _ n ih =>
    rcases show n = 2 ∨ n = 3 ∨ 4 ≤ n by omega with rfl | rfl | hn
    · exact ⟨_, _, _, .two .., by rw [buildwak_two]; simp [show numSwitches 2 = 1 by decide]⟩
    · exact ⟨_, _, _, .three .., buildwak_three w ins outs⟩
    · rw [buildwak_eq (by omega)]
      obtain ⟨v₁, top, topVars, hnet₁, he₁⟩ := ih (n / 2) (by omega) (by omega)
        ⟨w.swc + (n - 1), w.varct + 2 * (n - 1), w.hooked ++
          (leftColumn (n / 2) w.swc w.varct ins ++ rightColumn (rightSwitchCount n)
            (w.swc + n / 2) (w.varct + 2 * (n / 2)) outs).flatMap Switch.hooks⟩
        (fun k => columnWire (n / 2) w.varct ins (2 * k))
        (fun k => columnWire (rightSwitchCount n) (w.varct + 2 * (n / 2)) outs (2 * k))
      rw [he₁]
      obtain ⟨v₂, bot, botVars, hnet₂, he₂⟩ := ih ((n + 1) / 2) (by omega) (by omega)
        ⟨w.swc + (n - 1) + numSwitches (n / 2), v₁, _⟩
        (fun k => columnWire (n / 2) w.varct ins (botIndex n k))
        (fun k => columnWire (rightSwitchCount n) (w.varct + 2 * (n / 2)) outs (botIndex n k))
      refine ⟨v₂, _, _, .step hn hnet₁ hnet₂, he₂.trans ?_⟩
      rw [numSwitches_eq n (by omega)]
      simp only [List.flatMap_append, List.append_assoc, Nat.add_assoc]

/-! ## A flow satisfies the switches -/

def SwitchEnd.index : SwitchEnd → ℕ
  | .T i | .B i => i

namespace Network
variable {n v v' s : ℕ} {ins outs : ℕ → Wire} {sws : List Switch} {vars : List ℕ}

theorem length_vars (h : Network n v s ins outs v' sws vars) : vars.length = numIntermediate n := by
  induction h with
  | two => rfl
  | three => exact (show numIntermediate 3 = 3 by decide).symm
  | @step n v v₁ v₂ s ins outs top bot topVars botVars hn htop hbot ihtop ihbot =>
    have hcount := switchCount_eq n (by omega)
    rw [List.length_append, List.length_append, List.length_range', ihtop, ihbot,
      numIntermediate_eq n (by omega), levelWires, if_neg (by omega)]
    omega

/-- Every switch is named by its upper end. -/
theorem sw_eq (h : Network n v s ins outs v' sws vars) :
    ∀ sw ∈ sws, sw.sw = .T sw.sw.index ∧ sw.sw.index < s + numSwitches n := by
  induction h with
  | two v s =>
    rintro sw hsw
    rw [List.mem_singleton.mp hsw]
    exact ⟨rfl, by simp [SwitchEnd.index, show numSwitches 2 = 1 by decide]⟩
  | three v s =>
    intro sw hsw
    have hthree : numSwitches 3 = 3 := by decide
    simp only [List.mem_cons, List.not_mem_nil, or_false] at hsw
    rcases hsw with rfl | rfl | rfl <;> exact ⟨rfl, by simp [SwitchEnd.index, hthree]⟩
  | @step n v v₁ v₂ s ins outs top bot topVars botVars hn htop hbot ihtop ihbot =>
    have hcount := switchCount_eq n (by omega)
    have hsum := numSwitches_eq n (by omega)
    intro sw hsw
    simp only [List.mem_append, leftColumn, rightColumn, List.mem_map, List.mem_range] at hsw
    rcases hsw with ⟨k, hk, rfl⟩ | ⟨k, hk, rfl⟩ | hsw | hsw
    · exact ⟨rfl, by simp only [SwitchEnd.index]; omega⟩
    · exact ⟨rfl, by simp only [SwitchEnd.index]; omega⟩
    · exact ⟨(ihtop sw hsw).1, (ihtop sw hsw).2.trans_le (by omega)⟩
    · exact ⟨(ihbot sw hsw).1, (ihbot sw hsw).2.trans_le (by omega)⟩

end Network

theorem parseNets_hooks {sws : List Switch} (h : ∀ sw ∈ sws, sw.sw = .T sw.sw.index) :
    parseNets (sws.flatMap Switch.hooks) = sws := by
  induction sws with
  | nil => rfl
  | cons sw sws ih =>
    have hhooks : sw.hooks = [⟨sw.s1, sw.sw, sw.t1⟩, ⟨sw.s2, .B sw.sw.index, sw.t2⟩] := by
      rw [Switch.hooks, h sw List.mem_cons_self]
      rfl
    rw [List.flatMap_cons, hhooks]
    exact congrArg₂ List.cons rfl (ih fun sw hsw => h sw (List.mem_cons_of_mem _ hsw))

section
variable {α : Type} {wire x y : ℕ → α} {swap : ℕ → Bool} {n v v' b s : ℕ} {ins outs : ℕ → Wire}
  {sws : List Switch} {vars : List ℕ}

variable {val : Wire → α}

/-- The values on the wires of a column. -/
theorem columnWire_value {c w : ℕ} {node : ℕ → Wire} {p q : ℕ → α}
    (hnew : ∀ j < 2 * c, q j = val (.V (w + j))) (hlink : ∀ j < n, 2 * c ≤ j → q j = p j)
    (hnode : ∀ j < n, val (node j) = p j) {j : ℕ} (hj : j < n) :
    val (columnWire c w node j) = q j := by
  unfold columnWire
  split
  · next h => exact (hnew j h).symm
  · next h => rw [hnode j hj, hlink j hj (by omega)]

/-- The values on both sides of a switch. -/
def Switch.Crosses (swap : ℕ → Bool) (val : Wire → α) (sw : Switch) : Prop :=
  crossed (swap sw.sw.index) (val sw.s1) (val sw.s2) = (val sw.t1, val sw.t2)

theorem three_crosses (hflow : Flows wire swap 3 b s x y) (hins : ∀ i < 3, val (ins i) = x i)
    (houts : ∀ i < 3, val (outs i) = y i)
    (hvars : ∀ k u, [v + 2, v + 1, v + 3][k]? = some u → val (.V u) = wire (b + k)) :
    Switch.Crosses swap val ⟨ins 0, ins 1, .V (v + 2), .V (v + 1), .T s⟩ ∧
      Switch.Crosses swap val ⟨.V (v + 2), .V (v + 3), outs 0, outs 1, .T (s + 1)⟩ ∧
        Switch.Crosses swap val ⟨.V (v + 1), ins 2, .V (v + 3), outs 2, .T (s + 2)⟩ := by
  cases hflow with
  | step l r _ hlw hll hrw hrl hleft hright htop hbot =>
    have hl0 : val (.V (v + 2)) = l 0 := (hvars 0 _ rfl).trans (hlw 0 (by decide)).symm
    have hl1 : val (.V (v + 1)) = l 1 := (hvars 1 _ rfl).trans (hlw 1 (by decide)).symm
    have hr0 : val (.V (v + 2)) = r 0 := (hvars 0 _ rfl).trans (hrw 0 (by decide)).symm
    have hr1 : val (.V (v + 3)) = r 1 := (hvars 2 _ rfl).trans (hrw 1 (by decide)).symm
    have hl2 : l 2 = x 2 := hll 2 (by decide) (by decide)
    have hr2 : r 2 = y 2 := hrl 2 (by decide) (by decide)
    refine ⟨?_, ?_, ?_⟩
    · have hsw := hleft 0 (by decide)
      rw [← hl0, ← hl1, ← hins 0 (by decide), ← hins 1 (by decide)] at hsw
      exact hsw
    · have hsw := hright 0 (by decide)
      rw [← hr0, ← hr1, ← houts 0 (by decide), ← houts 1 (by decide)] at hsw
      exact hsw
    · cases hbot with
      | two hsw =>
        have hsw' : crossed (swap (s + 2)) (l 1) (l 2) = (r 1, r 2) := hsw
        rw [← hl1, hl2, ← hr1, hr2, ← hins 2 (by decide), ← houts 2 (by decide)] at hsw'
        exact hsw'
      | step _ _ hn => exact absurd hn (by decide)

/-- A flow satisfies every switch of the network, if its array is written to the inner wires in the
order in which they are named. -/
theorem Network.crosses (h : Network n v s ins outs v' sws vars) (hflow : Flows wire swap n b s x y)
    (hins : ∀ i < n, val (ins i) = x i) (houts : ∀ i < n, val (outs i) = y i)
    (hvars : ∀ k u, vars[k]? = some u → val (.V u) = wire (b + k)) :
    ∀ sw ∈ sws, sw.Crosses swap val := by
  induction h generalizing b x y with
  | two v s ins outs =>
    intro sw hsw
    rw [List.mem_singleton.mp hsw]
    cases hflow with
    | two hcross =>
      rw [← hins 0 two_pos, ← hins 1 one_lt_two, ← houts 0 two_pos, ← houts 1 one_lt_two] at hcross
      exact hcross
    | step _ _ hn => exact absurd hn (by decide)
  | three v s ins outs =>
    intro sw hsw
    obtain ⟨h0, h1, h2⟩ := three_crosses hflow hins houts hvars
    simp only [List.mem_cons, List.not_mem_nil, or_false] at hsw
    rcases hsw with rfl | rfl | rfl
    · exact h0
    · exact h1
    · exact h2
  | @step n v v₁ v₂ s ins outs top bot topVars botVars hn htop hbot ihtop ihbot =>
    cases hflow with
    | one | two => omega
    | step l r _ hlw hll hrw hrl hleft hright hftop hfbot =>
      have hcount := switchCount_eq n (by omega)
      have hlen := htop.length_vars
      have hbotVars := botVars_eq n b (by omega)
      have hlevel : levelWires n = 2 * (n - 1) := by
        rw [levelWires, if_neg (by omega)]
        omega
      have hlevelVars : ∀ k < 2 * (n - 1), val (.V (v + k)) = wire (b + k) := fun k hk =>
        hvars k _ (by rw [List.getElem?_append_left (by simpa using hk)]; simp [hk])
      have hl : ∀ j < 2 * (n / 2), l j = val (.V (v + j)) := fun j hj => by
        rw [hlw j (by omega), hlevelVars j (by omega)]
      have hr : ∀ j < 2 * rightSwitchCount n, r j = val (.V (v + 2 * (n / 2) + j)) := fun j hj => by
        rw [hrw j (by omega), Nat.add_assoc, hlevelVars _ (by omega), rightWire, if_neg (by omega),
          Nat.mul_comm (n / 2)]
      have hlval : ∀ j < n, val (columnWire (n / 2) v ins j) = l j := fun j hj =>
        columnWire_value hl (fun j hj hle => hll j hj (by omega)) hins hj
      have hrval : ∀ j < n, val (columnWire (rightSwitchCount n) (v + 2 * (n / 2)) outs j) = r j :=
        fun j hj => columnWire_value hr (fun j hj hle => hrl j hj (by omega)) houts hj
      rw [show s + n / 2 + rightSwitchCount n = s + (n - 1) by omega] at hftop hfbot
      rw [show b + n / 2 * 2 + rightSwitchCount n * 2 = b + 2 * (n - 1) by omega] at hftop
      rw [hbotVars, hlevel] at hfbot
      intro sw hsw
      simp only [List.mem_append, leftColumn, rightColumn, List.mem_map, List.mem_range] at hsw
      rcases hsw with ⟨k, hk, rfl⟩ | ⟨k, hk, rfl⟩ | hsw | hsw
      · have hcross := hleft k hk
        rw [hl _ (by omega), hl _ (by omega), ← hins _ (by omega), ← hins _ (by omega)] at hcross
        exact hcross
      · have hcross := hright k hk
        rw [hr _ (by omega), hr _ (by omega), ← houts _ (by omega), ← houts _ (by omega)] at hcross
        exact hcross
      · refine ihtop hftop (fun k hk => hlval _ (by omega)) (fun k hk => hrval _ (by omega))
          (fun k u hk => ?_) sw hsw
        have hlt := (List.getElem?_eq_some_iff.mp hk).1
        rw [Nat.add_assoc]
        refine hvars _ u ?_
        rw [List.getElem?_append_right (by simp), List.length_range', Nat.add_sub_cancel_left,
          List.getElem?_append_left hlt, hk]
      · refine ihbot hfbot (fun k hk => hlval _ ?_) (fun k hk => hrval _ ?_)
          (fun k u hk => ?_) sw hsw
        · unfold botIndex
          omega
        · unfold botIndex
          omega
        · rw [Nat.add_assoc, Nat.add_assoc]
          refine hvars _ u ?_
          rw [List.getElem?_append_right (by simp), List.length_range', Nat.add_sub_cancel_left,
            List.getElem?_append_right (by omega), hlen, Nat.add_sub_cancel_left, hk]

end

end Pequin
