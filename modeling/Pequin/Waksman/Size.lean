import Mathlib.Data.Set.Card
import Pequin.Waksman.Agreement

/-!
# The size of the network

The network that is built for `n` wires has `⌈log₂ 1⌉ + … + ⌈log₂ n⌉` switches, and the number of
its inner wires, under the names that the backend gives them, is the length of the array that the
router fills.
-/

namespace Pequin

open FirstMention

/-! ## Switches -/

theorem numSwitches_eq_sum (n : ℕ) : numSwitches n = ∑ i ∈ Finset.Icc 1 n, Nat.clog 2 i := by
  induction n with
  | zero => rfl
  | succ n ih => rw [numSwitches_succ, ih, Finset.sum_Icc_succ_top (Nat.le_add_left 1 n)]

theorem map_sw_column {c s : ℕ} {sw : ℕ → Switch} (h : ∀ k, (sw k).sw = .T (s + k)) :
    ((List.range c).map sw).map Switch.sw = (List.range' s c).map .T := by
  rw [List.map_map, List.range'_eq_map_range, List.map_map]
  exact List.map_congr_left fun k _ => h k

/-- The switches are numbered one after the other. -/
theorem Network.map_sw {n v v' s : ℕ} {ins outs : ℕ → Wire} {sws : List Switch} {vars : List ℕ}
    (h : Network n v s ins outs v' sws vars) :
    sws.map Switch.sw = (List.range' s (numSwitches n)).map .T := by
  induction h with
  | two => rw [show numSwitches 2 = 1 by decide]; rfl
  | three => rw [show numSwitches 3 = 3 by decide]; rfl
  | @step n v v₁ v₂ s ins outs top bot topVars botVars hn htop hbot ihtop ihbot =>
    have hcount := switchCount_eq n (by omega)
    have hleft : (leftColumn (n / 2) s v ins).map Switch.sw = (List.range' s (n / 2)).map .T :=
      map_sw_column fun k => rfl
    have hright : (rightColumn (rightSwitchCount n) (s + n / 2) (v + 2 * (n / 2))
      outs).map Switch.sw =
        (List.range' (s + n / 2) (rightSwitchCount n)).map .T := map_sw_column fun k => rfl
    have hsum := numSwitches_eq n (by omega)
    rw [List.map_append, List.map_append, List.map_append, hleft, hright, ihtop, ihbot,
      ← List.map_append, List.range'_append_1, ← List.map_append, ← List.map_append,
      show s + (n - 1) = s + n / 2 + rightSwitchCount n by omega, List.range'_append_1,
      List.range'_append_1]
    congr 2
    omega

/-! ## Wires -/

section
variable {α : Type} {wire : ℕ → α} {swap : ℕ → Bool} {n b s : ℕ} {ins outs : ℕ → α}

theorem crossed_mem {c : Bool} {x y u v : α} (h : crossed c x y = (u, v)) :
    (u = x ∨ u = y) ∧ (v = x ∨ v = y) := by
  obtain ⟨rfl, rfl⟩ := Prod.mk.inj h
  cases c with
  | false => exact ⟨.inl rfl, .inr rfl⟩
  | true => exact ⟨.inr rfl, .inl rfl⟩

/-- A column of `c` switches with links next to them. -/
theorem column_mem {c : ℕ} {f g : ℕ → α} {sw : ℕ → Bool} (hc : c * 2 ≤ n)
    (hcross : ∀ k < c, crossed (sw k) (f (2 * k)) (f (2 * k + 1)) = (g (2 * k), g (2 * k + 1)))
    (hlink : ∀ i < n, c * 2 ≤ i → g i = f i) {i : ℕ} (hi : i < n) : ∃ j < n, g i = f j := by
  rcases Nat.lt_or_ge i (c * 2) with hlt | hge
  · obtain ⟨hfst, hsnd⟩ := crossed_mem (hcross (i / 2) (by omega))
    rcases Nat.mod_two_eq_zero_or_one i with heven | hodd
    · rw [show 2 * (i / 2) = i by omega] at hfst
      rcases hfst with h | h
      · exact ⟨_, hi, h⟩
      · exact ⟨_, by omega, h⟩
    · rw [show 2 * (i / 2) + 1 = i by omega] at hsnd
      rcases hsnd with h | h
      · exact ⟨_, by omega, h⟩
      · exact ⟨_, hi, h⟩
  · exact ⟨i, hi, hlink i hi hge⟩

/-- What comes out on the right of the subnetworks has come in on the left. -/
theorem subnetworks_mem {l r : ℕ → α} (htop : ∀ k < n / 2, ∃ k' < n / 2, r (2 * k) = l (2 * k'))
    (hbot : ∀ k < (n + 1) / 2, ∃ k' < (n + 1) / 2, r (botIndex n k) = l (botIndex n k')) {j : ℕ}
    (hj : j < n) : ∃ i < n, r j = l i := by
  by_cases htopj : j % 2 = 0 ∧ j / 2 < n / 2
  · obtain ⟨k', hk', h⟩ := htop (j / 2) htopj.2
    rw [show 2 * (j / 2) = j by omega] at h
    exact ⟨_, by omega, h⟩
  · obtain ⟨k', hk', h⟩ := hbot (j / 2) (by omega)
    rw [show botIndex n (j / 2) = j by unfold botIndex; omega] at h
    exact ⟨_, by unfold botIndex; omega, h⟩

theorem Flows.outs_mem (h : Flows wire swap n b s ins outs) {j : ℕ} (hj : j < n) :
    ∃ i < n, outs j = ins i := by
  induction h generalizing j with
  | one h => exact ⟨0, one_pos, by rw [Nat.lt_one_iff.1 hj, h]⟩
  | @two b s ins outs h =>
    have hcross (k : ℕ) (hk : k < 1) : crossed (swap (s + k)) (ins (2 * k)) (ins (2 * k + 1)) =
        (outs (2 * k), outs (2 * k + 1)) := by
      obtain rfl := Nat.lt_one_iff.1 hk
      exact h
    exact column_mem (c := 1) le_rfl hcross (fun i hi hge => absurd hi (not_lt.2 hge)) hj
  | @step n b s ins outs l r hn hlw hll hrw hrl hleft hright htop hbot ihtop ihbot =>
    have hcount := switchCount_eq n (by omega)
    obtain ⟨j', hj', hout⟩ := column_mem (by omega) hright (fun i hi hge => (hrl i hi hge).symm) hj
    obtain ⟨i, hi, hsub⟩ := subnetworks_mem (fun k hk => ihtop hk) (fun k hk => ihbot hk) hj'
    obtain ⟨i', hi', hin⟩ := column_mem (by omega) hleft hll hi
    exact ⟨i', hi', hout.trans (hsub.trans hin)⟩

theorem exists_rightWire (hn : 3 ≤ n) {k : ℕ} (hge : n / 2 * 2 ≤ k) (hk : k < levelWires n) :
    ∃ j < rightSwitchCount n * 2, rightWire n j = k := by
  unfold levelWires rightSwitchCount at *
  by_cases h3 : n = 3
  · subst h3
    exact ⟨1, by decide, by rw [rightWire, if_pos rfl]; simp only [if_true] at hk; omega⟩
  · rw [if_neg h3] at hk
    exact ⟨k - n / 2 * 2, by omega, by rw [rightWire, if_neg h3]; omega⟩

/-- Every inner wire carries one of the inputs. -/
theorem Flows.wire_mem (h : Flows wire swap n b s ins outs) {k : ℕ} (hk : k < numIntermediate n) :
    ∃ i < n, wire (b + k) = ins i := by
  induction h generalizing k with
  | one h =>
    rw [show numIntermediate 1 = 0 by decide] at hk
    exact absurd hk (Nat.not_lt_zero k)
  | two h =>
    rw [show numIntermediate 2 = 0 by decide] at hk
    exact absurd hk (Nat.not_lt_zero k)
  | @step n b s ins outs l r hn hlw hll hrw hrl hleft hright htop hbot ihtop ihbot =>
    have hcount := switchCount_eq n (by omega)
    have hbotVars := botVars_eq n b hn
    have htopVars := topVars_eq n b
    rw [numIntermediate_eq n hn] at hk
    have hl {i : ℕ} (hi : i < n) : ∃ i' < n, l i = ins i' := column_mem (by omega) hleft hll hi
    have hr {j : ℕ} (hj : j < n) : ∃ i < n, r j = ins i := by
      obtain ⟨i, hi, hsub⟩ :=
        subnetworks_mem (fun k hk => htop.outs_mem hk) (fun k hk => hbot.outs_mem hk) hj
      obtain ⟨i', hi', hin⟩ := hl hi
      exact ⟨i', hi', hsub.trans hin⟩
    rcases Nat.lt_or_ge k (n / 2 * 2) with hleftWire | hge
    · rw [← hlw k hleftWire]
      exact hl (by omega)
    rcases Nat.lt_or_ge k (levelWires n) with hlevel | hge'
    · obtain ⟨j, hj, hwire⟩ := exists_rightWire hn hge hlevel
      rw [← hwire, ← hrw j hj]
      exact hr (by omega)
    rcases Nat.lt_or_ge k (levelWires n + numIntermediate (n / 2)) with htopWire | hge''
    · obtain ⟨i, hi, hwire⟩ := ihtop (k := k - levelWires n) (by omega)
      obtain ⟨i', hi', hin⟩ := hl (i := 2 * i) (by omega)
      rw [show b + n / 2 * 2 + rightSwitchCount n * 2 + (k - levelWires n) =
        b + k by omega] at hwire
      exact ⟨i', hi', hwire.trans hin⟩
    · obtain ⟨i, hi, hwire⟩ := ihbot (k := k - (levelWires n + numIntermediate (n / 2))) (by omega)
      obtain ⟨i', hi', hin⟩ := hl (i := botIndex n i) (by unfold botIndex; omega)
      rw [hbotVars, show b + levelWires n + numIntermediate (n / 2) +
        (k - (levelWires n + numIntermediate (n / 2))) = b + k by omega] at hwire
      exact ⟨i', hi', hwire.trans hin⟩

end

/-! ## Sizes -/

theorem ncard_named {names : List Name} {vars : List ℕ} {m : ℕ} (hlen : vars.length = m)
    (hnames : names.eraseDups = vars.flatMap fun u => nodeNames (.V u)) :
    {w | ∃ k, .wire w k ∈ names}.ncard = m := by
  have hnodup : vars.Nodup := by
    have h := nodup_eraseDups names
    rw [hnames, List.nodup_flatMap] at h
    refine h.2.imp_of_mem fun {u u'} hu hu' hdisjoint heq => ?_
    rw [heq] at hdisjoint
    exact hdisjoint (List.mem_cons_self (a := Name.wire (.V u') .addr)) List.mem_cons_self
  have hset : {w | ∃ k, .wire w k ∈ names} = ((vars.toFinset.image Wire.V : Finset Wire) :
    Set Wire) := by
    ext w
    rw [Finset.mem_coe, Finset.mem_image]
    constructor
    · rintro ⟨k, hk⟩
      rw [← List.mem_eraseDups, hnames] at hk
      obtain ⟨u, hu, hmem⟩ := List.mem_flatMap.1 hk
      obtain ⟨k', hname⟩ := mem_nodeNames.1 hmem
      exact ⟨u, List.mem_toFinset.2 hu, (Name.wire.inj hname).1.symm⟩
    · rintro ⟨u, hu, rfl⟩
      refine ⟨.addr, List.mem_eraseDups.1 ?_⟩
      rw [hnames]
      exact List.mem_flatMap.2 ⟨u, List.mem_toFinset.1 hu, mem_nodeNames.2 ⟨.addr, rfl⟩⟩
  rw [hset, Set.ncard_coe_finset, Finset.card_image_of_injective _ fun a b h => Wire.V.inj h,
    List.toFinset_card_of_nodup hnodup, hlen]

end Pequin
