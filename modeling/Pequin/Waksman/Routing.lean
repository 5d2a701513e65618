import Pequin.Waksman.Flow
import Pequin.Waksman.Loop

/-!
# The router finds a flow

Every level colours its packets: the upper subnetwork gets one packet of each pair on the left and
one of each pair on the right, and so does the lower one. The packets of a subnetwork are therefore
a smaller instance of the same problem, and `route` ends with switches and wires that carry the
packets to their places.
-/

namespace Pequin

/-- Two arrays agree outside of `n` places from `b`. -/
def SameOutside {β : Type} (f g : ℕ → β) (b n : ℕ) : Prop := ∀ k, k < b ∨ b + n ≤ k → g k = f k

namespace SameOutside
variable {β : Type} {f g h : ℕ → β} {b b' n n' : ℕ}

theorem trans (hfg : SameOutside f g b n) (hgh : SameOutside g h b n) : SameOutside f h b n :=
  fun k hk => (hgh k hk).trans (hfg k hk)

theorem mono (hfg : SameOutside f g b' n') (hsub : n' = 0 ∨ b ≤ b' ∧ b' + n' ≤ b + n) :
    SameOutside f g b n := fun k hk => hfg k (by omega)

end SameOutside

/-! ## The packets of a subnetwork -/

def subSize (n : ℕ) (a : Bool) : ℕ := if a then (n + 1) / 2 else n / 2

/-- The wire of the level at the place `k` of a subnetwork. -/
def subIndex (n : ℕ) (a : Bool) (k : ℕ) : ℕ := if a then botIndex n k else 2 * k

theorem subIndex_of_pair {n i : ℕ} {a : Bool} (h : 2 * (i / 2) + 1 < n) :
    subIndex n a (i / 2) = 2 * (i / 2) + a.toNat := by
  cases a with
  | false => rfl
  | true =>
    show min (2 * (i / 2) + 1) (n - 1) = 2 * (i / 2) + 1
    omega

theorem subIndex_last {n i : ℕ} (h : i = n - 1) : subIndex n true (i / 2) = n - 1 := by
  show min (2 * (i / 2) + 1) (n - 1) = n - 1
  omega

/-- The packets of a switch have different colours, and a single last packet goes down. -/
structure Side.Coloured {n : ℕ} (sd : Side n) (c : Fin n → Bool) : Prop where
  opposite : ∀ {i j}, sd.Neighbours i j → c j = !c i
  last : ∀ {i}, n % 2 = 1 → sd.idx i = n - 1 → c i = true

namespace Side.Coloured
variable {n : ℕ} {sd : Side n} {c : Fin n → Bool} {a : Bool} (h : sd.Coloured c)
include h

theorem half_lt (i : Fin n) : sd.idx i / 2 < subSize n (c i) := by
  have hi := sd.idx_lt i
  cases hc : c i with
  | true => simp only [subSize, if_true]; omega
  | false =>
    have hlast : ¬ (n % 2 = 1 ∧ sd.idx i = n - 1) := fun hl => by
      rw [h.last hl.1 hl.2] at hc
      cases hc
    simp only [subSize, Bool.false_eq_true, if_false]
    omega

theorem eq_of_half {i j : Fin n} (hc : c i = c j)
    (hhalf : sd.idx i / 2 = sd.idx j / 2) : i = j := by
  by_contra hne
  have hopp := h.opposite ⟨hne, hhalf⟩
  rw [← hc] at hopp
  cases hi : c i <;> simp [hi] at hopp

/-- Every place of a subnetwork gets a packet. -/
theorem exists_half {k : ℕ} (hk : k < subSize n a) :
    ∃ i, sd.idx i / 2 = k ∧ c i = a := by
  by_cases hpair : 2 * k + 1 < n
  · obtain ⟨i, hi⟩ := sd.exists_idx (show 2 * k < n by omega)
    obtain ⟨j, hj⟩ := sd.exists_idx hpair
    have hne : i ≠ j := by
      intro he
      subst he
      omega
    have hopp := h.opposite ⟨hne, by omega⟩
    by_cases hc : c i = a
    · exact ⟨i, by omega, hc⟩
    · refine ⟨j, by omega, ?_⟩
      rw [hopp]
      revert hc
      cases c i <;> cases a <;> simp
  · cases a with
    | false =>
      simp only [subSize, Bool.false_eq_true, if_false] at hk
      omega
    | true =>
      simp only [subSize, if_true] at hk
      obtain ⟨i, hi⟩ := sd.exists_idx (show n - 1 < n by omega)
      exact ⟨i, by omega, h.last (by omega) hi⟩

/-- The packets `p` at the switches and the wires `v` behind them. -/
theorem crossed_eq {α : Type} {data : Fin n → α} {sw : ℕ → RoutingSwitch} {intermediate : ℕ → α}
    (p v : ℕ → α) (hrec : sd.Records data (fun i => some (c i)) sw intermediate)
    (hcount : sd.count * 2 ≤ n) (hp : ∀ i, p (sd.idx i) = data i)
    (hv : ∀ i, sd.idx i < sd.count * 2 → v (2 * (sd.idx i / 2) + (c i).toNat) = data i) {k : ℕ}
    (hk : k < sd.count) : crossed (sw (sd.swOffset + k)).swap (p (2 * k)) (p (2 * k + 1)) =
      (v (2 * k), v (2 * k + 1)) := by
  obtain ⟨i, hi⟩ := sd.exists_idx (show 2 * k < n by omega)
  obtain ⟨j, hj⟩ := sd.exists_idx (show 2 * k + 1 < n by omega)
  have hne : i ≠ j := by
    intro he
    subst he
    omega
  have hopp := h.opposite ⟨hne, by omega⟩
  have hset := hrec.set (i := i) rfl (by omega)
  have hvi := hv i (by omega)
  have hvj := hv j (by omega)
  have hik : sd.idx i / 2 = k := by omega
  have hjk : sd.idx j / 2 = k := by omega
  have heven : ¬ sd.idx i % 2 = 1 := by omega
  rw [hik] at hvi hset
  rw [hjk, hopp] at hvj
  have hpi := hp i
  have hpj := hp j
  rw [hi] at hpi
  rw [hj] at hpj
  rw [hset, hpi, hpj]
  -- the packet that comes straight on is the upper one, unless it goes down
  cases hc : c i with
  | false =>
    rw [hc] at hvi hvj
    rw [← hvi, ← hvj]
    simp [crossed, heven]
  | true =>
    rw [hc] at hvi hvj
    rw [← hvi, ← hvj]
    simp [crossed, heven]

/-- The packets of a subnetwork are those on its wires. -/
theorem sub_data {α : Type} {data : Fin n → α} {sub : ℕ → Packet α} {v : ℕ → α}
    (hsub : ∀ i, c i = a → (sub (sd.idx i / 2)).data = data i)
    (hv : ∀ i, v (subIndex n (c i) (sd.idx i / 2)) = data i) {k : ℕ} (hk : k < subSize n a) :
    v (subIndex n a k) = (sub k).data := by
  obtain ⟨i, hi, hc⟩ := h.exists_half hk
  have hdata := hv i
  rw [hc, ← hsub i hc, hi] at hdata
  exact hdata

end Side.Coloured

/-- The packets on the left and on the right are those of a permutation. -/
def Routable {α : Type} (n : ℕ) (leftPkt rightPkt : ℕ → Packet α) : Prop :=
  ∃ (perm : Equiv.Perm (Fin n)) (data : Fin n → α),
    (⟨0, 0, perm, data⟩ : Level α n).Start leftPkt rightPkt

theorem Routable.level {α : Type} {n : ℕ} {leftPkt rightPkt : ℕ → Packet α}
    (h : Routable n leftPkt rightPkt) (b s : ℕ) :
    ∃ L : Level α n, L.b = b ∧ L.s = s ∧ L.Start leftPkt rightPkt := by
  obtain ⟨perm, data, h⟩ := h
  exact ⟨⟨b, s, perm, data⟩, rfl, rfl, h.left_data, h.left_dst, h.left_routed, h.right_data,
    h.right_src, h.right_routed⟩

namespace Level.Routed
variable {α : Type} {n : ℕ} {L : Level α n} {st₀ st : RouteState α} {c : Fin n → Bool}
  (h : L.Routed st₀ st c)
include h

theorem left_coloured : L.left.Coloured c := ⟨h.left, h.left_last⟩

theorem right_coloured : L.right.Coloured c :=
  ⟨h.right, fun _ hlast => h.right_last hlast⟩

/-- The packets of one colour are routable. -/
theorem routable (a : Bool) :
    Routable (subSize n a) (st.subLeft a) (st.subRight a) := by
  choose f hhalf hcol using fun k : Fin (subSize n a) => h.left_coloured.exists_half k.isLt
  have hlt : ∀ k, L.right.idx (f k) / 2 < subSize n a := fun k => by
    have := h.right_coloured.half_lt (f k)
    rwa [hcol k] at this
  have hinj : Function.Injective fun k => (⟨L.right.idx (f k) / 2, hlt k⟩ : Fin (subSize n a)) := by
    intro k k' he
    have heq : f k = f k' :=
      h.right_coloured.eq_of_half ((hcol k).trans (hcol k').symm) (Fin.mk.inj he)
    exact Fin.ext (by rw [← hhalf k, ← hhalf k', heq])
  have hleft : ∀ k : Fin (subSize n a), st.subLeft a k = L.packet (f k) := fun k => by
    rw [← h.records.subLeft (congrArg some (hcol k)), hhalf k]
  have hright : ∀ k : Fin (subSize n a), st.subRight a (L.right.idx (f k) / 2) = L.packet (f k) :=
    fun k => h.records.subRight (congrArg some (hcol k))
  refine ⟨Equiv.ofBijective _ (Finite.injective_iff_bijective.mp hinj), fun k => L.data (f k), ?_⟩
  exact ⟨fun k => by rw [hleft k]; rfl, fun k => by rw [hleft k]; rfl,
    fun k => by rw [hleft k]; rfl, fun k => congrArg Packet.data (hright k),
    fun k => (congrArg Packet.src (hright k)).trans (hhalf k),
    fun k => congrArg Packet.routed (hright k)⟩

/-- The wires behind the switches on the left. -/
theorem left_value (hstart : L.Start st₀.leftPkt st₀.rightPkt) {l : ℕ → α}
    (hwire : ∀ i < n / 2 * 2, l i = st.intermediate (L.b + i))
    (hlink : ∀ i < n, n / 2 * 2 ≤ i → l i = (st₀.leftPkt i).data) (i : Fin n) :
    l (subIndex n (c i) (L.left.idx i / 2)) = L.data i := by
  by_cases hon : L.left.idx i < L.left.count * 2
  · have hrec := h.records.left.wire (i := i) rfl hon trivial
    rw [count_left] at hon
    rw [subIndex_of_pair (by omega), hwire _ (by have := Bool.toNat_le (c i); omega), ← hrec]
    rfl
  · obtain ⟨hlast, hodd⟩ := left_link.mp hon
    rw [h.left_last hodd hlast, subIndex_last (by omega), hlink _ (by omega) (by omega), ← hlast]
    exact hstart.left_data i

/-- A wire that is not a link. In a network of three, the upper packet is on the only wire of the
upper subnetwork, which is also the upper wire on the left. -/
theorem right_wire_value {i : Fin n} (hon : L.right.idx i < L.right.count * 2) :
    st.intermediate (L.b + rightWire n (2 * (L.right.idx i / 2) + (c i).toNat)) = L.data i := by
  by_cases hkeep : n = 3 → c i = true
  · rw [← h.records.right.wire (i := i) rfl hon hkeep, Side.wire, offset_right, rightWire]
    by_cases h3 : n = 3
    · subst h3
      rw [count_right] at hon
      rw [hkeep rfl]
      simp [rightSwitchCount] at hon ⊢
      congr 1
      omega
    · simp only [h3, false_and, if_false, Nat.sub_zero, Nat.add_assoc]
  · obtain ⟨h3, hc⟩ := Classical.not_imp.mp hkeep
    subst h3
    rw [Bool.not_eq_true] at hc
    have hhalf := h.left_coloured.half_lt i
    have hhalf' := h.right_coloured.half_lt i
    rw [hc] at hhalf hhalf' ⊢
    have hl : L.left.idx i / 2 = 0 := Nat.lt_one_iff.mp hhalf
    have hr : L.right.idx i / 2 = 0 := Nat.lt_one_iff.mp hhalf'
    rw [hr, ← h.records.left.wire (congrArg some hc)
      (by rw [count_left]; omega) trivial, Side.wire, hl]
    rfl

/-- The wires before the switches on the right. -/
theorem right_value (hn : 3 ≤ n) (hstart : L.Start st₀.leftPkt st₀.rightPkt)
    {r : ℕ → α} (hwire : ∀ j < rightSwitchCount n * 2, r j = st.intermediate (L.b + rightWire n j))
    (hlink : ∀ j < n, rightSwitchCount n * 2 ≤ j → r j = (st₀.rightPkt j).data) (i : Fin n) :
    r (subIndex n (c i) (L.right.idx i / 2)) = L.data i := by
  by_cases hon : L.right.idx i < L.right.count * 2
  · have hcount := L.count_right_le
    have ha := Bool.toNat_le (c i)
    rw [count_right] at hcount
    rw [subIndex_of_pair (by rw [count_right] at hon; omega),
      hwire _ (by rw [count_right] at hon; omega)]
    exact h.right_wire_value hon
  · have hdata := hstart.right_data i
    rcases (right_link (by omega)).mp hon with hlast | ⟨hlast, heven⟩
    · rw [h.right_last hlast, subIndex_last (by omega), ← hlast,
        hlink _ (L.right.idx_lt i) (by rw [count_right] at hon; omega), hdata]
    · -- the neighbour of the last packet, which goes down
      obtain ⟨j, hj⟩ := L.right.exists_idx (show n - 1 < n by omega)
      have hne : j ≠ i := by
        intro he
        subst he
        omega
      have hc := h.right (i := j) (j := i) ⟨hne, by omega⟩
      rw [h.right_last hj] at hc
      rw [hc, show subIndex n (!true) (L.right.idx i / 2) = L.right.idx i by
          show 2 * (L.right.idx i / 2) = _
          omega,
        hlink _ (L.right.idx_lt i) (by rw [count_right] at hon; omega), hdata]

/-- The switches of the level are set. -/
theorem set (hn : 3 ≤ n) {k : ℕ} (hk : k < n - 1) :
    (st.sw (L.s + k)).set = true := by
  have hcount := switchCount_eq n (by omega)
  by_cases hlt : k < n / 2
  · obtain ⟨i, hi⟩ := L.left.exists_idx (show 2 * k < n by omega)
    have hset := h.records.left.set (i := i) rfl (by rw [count_left]; omega)
    rw [hi, swOffset_left, Nat.mul_div_cancel_left k two_pos] at hset
    rw [hset]
  · have hle := L.count_right_le
    rw [count_right] at hle
    obtain ⟨i, hi⟩ := L.right.exists_idx (show 2 * (k - n / 2) < n by omega)
    have hset := h.records.right.set (i := i) rfl (by rw [count_right]; omega)
    rw [hi, swOffset_right, Nat.mul_div_cancel_left _ two_pos,
      show L.s + n / 2 + (k - n / 2) = L.s + k by omega] at hset
    rw [hset]

/-- The level carries its packets if the subnetworks carry theirs. `wire` and `swap` are the final
arrays, in which the level is as it was left. -/
theorem flows (hn : 3 ≤ n) (hstart : L.Start st₀.leftPkt st₀.rightPkt)
    {wire : ℕ → α} {swap : ℕ → Bool}
    (hwire : ∀ k < levelWires n, wire (L.b + k) = st.intermediate (L.b + k))
    (hswap : ∀ k < n - 1, swap (L.s + k) = (st.sw (L.s + k)).swap)
    (htop : Flows wire swap (n / 2) (L.b + n / 2 * 2 + rightSwitchCount n * 2)
      (L.s + n / 2 + rightSwitchCount n) (fun k => (st.topLeft k).data)
      fun k => (st.topRight k).data)
    (hbot : Flows wire swap ((n + 1) / 2)
      (L.b + n / 2 * 2 + rightSwitchCount n * 2 + 2 * numSwitches (n / 2) - n / 2)
      (L.s + n / 2 + rightSwitchCount n + numSwitches (n / 2)) (fun k => (st.botLeft k).data)
      fun k => (st.botRight k).data) :
    Flows wire swap n L.b L.s (fun i => (st₀.leftPkt i).data) fun j => (st₀.rightPkt j).data := by
  have hcount := switchCount_eq n (by omega)
  have hlevel := le_levelWires n
  let l : ℕ → α := fun i => if i < n / 2 * 2 then wire (L.b + i) else (st₀.leftPkt i).data
  let r : ℕ → α := fun j =>
    if j < rightSwitchCount n * 2 then wire (L.b + rightWire n j) else (st₀.rightPkt j).data
  have hlw : ∀ i < n / 2 * 2, l i = wire (L.b + i) := fun i hi => if_pos hi
  have hll : ∀ i < n, n / 2 * 2 ≤ i → l i = (st₀.leftPkt i).data :=
    fun i _ hle => if_neg (Nat.not_lt.mpr hle)
  have hrw : ∀ j < rightSwitchCount n * 2, r j = wire (L.b + rightWire n j) := fun j hj => if_pos hj
  have hrl : ∀ j < n, rightSwitchCount n * 2 ≤ j → r j = (st₀.rightPkt j).data :=
    fun j _ hle => if_neg (Nat.not_lt.mpr hle)
  have hl := h.left_value hstart
    (fun i hi => (hlw i hi).trans (hwire i (by omega))) hll
  have hr := h.right_value hn hstart
    (fun j hj => (hrw j hj).trans (hwire _ (rightWire_lt hj))) hrl
  refine .step l r hn hlw hll hrw hrl (fun k hk => ?_) (fun k hk => ?_) (htop.congr ?_ ?_)
    (hbot.congr ?_ ?_)
  · rw [hswap k (by omega)]
    refine h.left_coloured.crossed_eq (fun i => (st₀.leftPkt i).data) l h.records.left
      L.count_left_le hstart.left_data (fun i hi => ?_) hk
    rw [count_left] at hi
    rw [← subIndex_of_pair (n := n) (by omega)]
    exact hl i
  · rw [Nat.add_assoc, hswap _ (by omega), ← Nat.add_assoc]
    refine crossed_symm (h.right_coloured.crossed_eq (fun j => (st₀.rightPkt j).data) r
      h.records.right L.count_right_le hstart.right_data (fun i hi => ?_) hk)
    have hle := L.count_right_le
    rw [count_right] at hi hle
    rw [← subIndex_of_pair (n := n) (by omega)]
    exact hr i
  · exact fun k hk => h.left_coloured.sub_data (a := false) (fun i hc => by
      exact congrArg Packet.data (h.records.subLeft (congrArg some hc))) hl hk
  · exact fun k hk => h.right_coloured.sub_data (a := false) (fun i hc => by
      exact congrArg Packet.data (h.records.subRight (congrArg some hc))) hr hk
  · exact fun k hk => h.left_coloured.sub_data (a := true) (fun i hc => by
      exact congrArg Packet.data (h.records.subLeft (congrArg some hc))) hl hk
  · exact fun k hk => h.right_coloured.sub_data (a := true) (fun i hc => by
      exact congrArg Packet.data (h.records.subRight (congrArg some hc))) hr hk

end Level.Routed

/-! ## The recursion -/

section
variable {α : Type}

/-- What a call of `route` leaves behind. -/
structure Found (leftPkt rightPkt : ℕ → Packet α) (intermediate : ℕ → α) (sw : ℕ → RoutingSwitch)
    (b s n : ℕ) (intermediate' : ℕ → α) (sw' : ℕ → RoutingSwitch) : Prop where
  flows : Flows intermediate' (fun k => (sw' k).swap) n b s (fun i => (leftPkt i).data)
    fun j => (rightPkt j).data
  set : ∀ k < numSwitches n, (sw' (s + k)).set = true
  wires : SameOutside intermediate intermediate' b (numIntermediate n)
  switches : SameOutside sw sw' s (numSwitches n)

variable [DecidableEq α] {junk : Packet α} {leftPkt rightPkt : ℕ → Packet α} {intermediate : ℕ → α}
  {sw : ℕ → RoutingSwitch} {b s n : ℕ}

/-- `route` ends, with no failed assertion, on `n` packets whose switches are not set yet. -/
def Routes (junk : Packet α) (n : ℕ) : Prop :=
  ∀ (leftPkt rightPkt : ℕ → Packet α) (intermediate : ℕ → α) (sw : ℕ → RoutingSwitch) (b s : ℕ),
    Routable n leftPkt rightPkt → (∀ k < numSwitches n, (sw (s + k)).set = false) →
      ∃ intermediate' sw', route junk leftPkt rightPkt intermediate sw b s n =
        some (intermediate', sw') ∧
          Found leftPkt rightPkt intermediate sw b s n intermediate' sw'

theorem routes_one : Routes junk 1 := by
  intro leftPkt rightPkt intermediate sw b s h _
  obtain ⟨L, -, -, hstart⟩ := h.level b s
  have hidx : L.right.idx 0 = 0 := by
    have := L.right.idx_lt 0
    omega
  have hdata : (leftPkt 0).data = (rightPkt 0).data := by
    have hright := hstart.right_data 0
    rw [hidx] at hright
    exact (hstart.left_data 0).trans hright.symm
  refine ⟨intermediate, sw, by rw [route, if_pos hdata], .one hdata, ?_, fun _ _ => rfl,
    fun _ _ => rfl⟩
  intro k hk
  exact absurd hk (Nat.not_lt_zero k)

omit [DecidableEq α] in
/-- The only switch of a network of two. -/
theorem found_two {swap : Bool} (h : crossed swap (leftPkt 0).data (leftPkt 1).data =
    ((rightPkt 0).data, (rightPkt 1).data)) :
    Found leftPkt rightPkt intermediate sw b s 2 intermediate
      (Function.update sw s ⟨swap, true⟩) := by
  have hone : numSwitches 2 = 1 := by decide
  refine ⟨.two ?_, fun k hk => ?_, fun _ _ => rfl, fun k hk => ?_⟩
  · rw [Function.update_self]
    exact h
  · rw [hone, Nat.lt_one_iff] at hk
    rw [hk, Nat.add_zero, Function.update_self]
  · rw [hone] at hk
    rw [Function.update_of_ne (by omega)]

theorem routes_two : Routes junk 2 := by
  intro leftPkt rightPkt intermediate sw b s h hunset
  obtain ⟨L, -, -, hstart⟩ := h.level b s
  have h0 : (leftPkt 0).data = L.data 0 := hstart.left_data 0
  have h1 : (leftPkt 1).data = L.data 1 := hstart.left_data 1
  have hr0 := hstart.right_data 0
  have hr1 := hstart.right_data 1
  have hlt0 := L.right.idx_lt 0
  have hlt1 := L.right.idx_lt 1
  have hne : L.right.idx 0 ≠ L.right.idx 1 := fun he => by cases L.right.idx_inj he
  have hset : ¬ (sw s).set = true := Bool.eq_false_iff.mp (hunset 0 (by decide))
  by_cases hstraight : (leftPkt 0).data = (rightPkt 0).data
  · refine ⟨_, _, by rw [route, if_neg hset, if_pos hstraight], found_two ?_⟩
    -- if the packets change places, their data are the same
    have hother : (leftPkt 1).data = (rightPkt 1).data := by
      rcases Nat.lt_or_ge (L.right.idx 0) 1 with hlt | hge
      · rw [show L.right.idx 1 = 1 by omega] at hr1
        rw [h1, hr1]
      · rw [show L.right.idx 0 = 1 by omega] at hr0
        rw [show L.right.idx 1 = 0 by omega] at hr1
        rw [h1, hr0, ← h0, hstraight, hr1]
    rw [hstraight, hother]
    rfl
  · have hidx : L.right.idx 0 = 1 := by
      by_contra hidx
      rw [show L.right.idx 0 = 0 by omega] at hr0
      exact hstraight (h0.trans hr0.symm)
    rw [hidx] at hr0
    rw [show L.right.idx 1 = 0 by omega] at hr1
    have hcross : (leftPkt 0).data = (rightPkt 1).data := h0.trans hr0.symm
    refine ⟨_, _, by rw [route, if_neg hset, if_neg hstraight, if_pos hcross], found_two ?_⟩
    rw [hcross, h1, ← hr1]
    rfl

/-- The calls of `route` when the loop ends with `st` and the upper subnetwork is routed. -/
theorem route_eq (hn : 3 ≤ n) {st₀ st : RouteState α} {intermediate₁ : ℕ → α}
    {sw₁ : ℕ → RoutingSwitch} (hst₀ : st₀ = ⟨leftPkt, rightPkt, intermediate, sw, fun _ => junk,
      fun _ => junk, fun _ => junk, fun _ => junk⟩)
    (hloop : (st₀.first n b s).1.loop n b s n (st₀.first n b s).2 = some st)
    (htop : route junk st.topLeft st.topRight st.intermediate st.sw
      (b + n / 2 * 2 + rightSwitchCount n * 2) (s + n / 2 + rightSwitchCount n) (n / 2) =
        some (intermediate₁, sw₁)) :
    route junk leftPkt rightPkt intermediate sw b s n =
      route junk st.botLeft st.botRight intermediate₁ sw₁
        (b + n / 2 * 2 + rightSwitchCount n * 2 + 2 * numSwitches (n / 2) - n / 2)
        (s + n / 2 + rightSwitchCount n + numSwitches (n / 2)) ((n + 1) / 2) := by
  obtain ⟨m, rfl⟩ := Nat.exists_eq_add_of_le' hn
  subst hst₀
  rw [route]
  generalize RouteState.first (m + 3) b s _ = start at hloop ⊢
  obtain ⟨st₁, nextIndex⟩ := start
  dsimp only at hloop ⊢
  rw [hloop, Option.bind_some, htop, Option.bind_some]

/-- One level, given that smaller networks are routed. -/
theorem routes_step (hn : 3 ≤ n) (ih : ∀ m < n, 1 ≤ m → Routes junk m) : Routes junk n := by
  intro leftPkt rightPkt intermediate sw b s h hunset
  have hcount := switchCount_eq n (by omega)
  have hsum := numSwitches_eq n (by omega)
  have hsize := numIntermediate_eq n hn
  have htopVars := topVars_eq n b
  have hbotVars := botVars_eq n b hn
  obtain ⟨L, rfl, rfl, hstart⟩ := h.level b s
  let st₀ : RouteState α := ⟨leftPkt, rightPkt, intermediate, sw, fun _ => junk, fun _ => junk,
    fun _ => junk, fun _ => junk⟩
  have hswitches : L.switches = n - 1 := hcount
  obtain ⟨st, c, hloop, hrouted⟩ := L.exists_routed hn
    (show L.Start st₀.leftPkt st₀.rightPkt from hstart) fun k hk => hunset k (by omega)
  have hsw : SameOutside sw st.sw L.s (n - 1) := hswitches ▸ hrouted.records.sw
  have hinter : SameOutside intermediate st.intermediate L.b (levelWires n) :=
    hrouted.records.intermediate
  obtain ⟨inter₁, sw₁, hroute₁, found₁⟩ := ih (n / 2) (by omega) (by omega) _ _ st.intermediate
    st.sw (L.b + n / 2 * 2 + rightSwitchCount n * 2) (L.s + n / 2 + rightSwitchCount n)
    (hrouted.routable false) fun k hk => by
      rw [hsw _ (by omega), show L.s + n / 2 + rightSwitchCount n + k = L.s + (n - 1 + k) by omega]
      exact hunset _ (by omega)
  obtain ⟨inter₂, sw₂, hroute₂, found₂⟩ := ih ((n + 1) / 2) (by omega) (by omega) _ _ inter₁ sw₁
    (L.b + n / 2 * 2 + rightSwitchCount n * 2 + 2 * numSwitches (n / 2) - n / 2)
    (L.s + n / 2 + rightSwitchCount n + numSwitches (n / 2)) (hrouted.routable true) fun k hk => by
      rw [found₁.switches _ (by omega), hsw _ (by omega), show L.s + n / 2 + rightSwitchCount n +
        numSwitches (n / 2) + k = L.s + (n - 1 + numSwitches (n / 2) + k) by omega]
      exact hunset _ (by omega)
  refine ⟨inter₂, sw₂, (route_eq hn rfl hloop hroute₁).trans hroute₂, ?_, fun k hk => ?_, ?_, ?_⟩
  · refine hrouted.flows hn hstart (fun k hk => ?_) (fun k hk => ?_) (found₁.flows.frame ?_ ?_)
      found₂.flows
    · rw [found₂.wires _ (by omega), found₁.wires _ (by omega)]
    · rw [found₂.switches _ (by omega), found₁.switches _ (by omega)]
    · exact fun k _ _ => found₂.wires k (by omega)
    · exact fun k _ _ => congrArg _ (found₂.switches k (by omega))
  · rcases Nat.lt_or_ge k (n - 1) with hlevel | hlevel
    · rw [found₂.switches _ (by omega), found₁.switches _ (by omega)]
      exact hrouted.set hn hlevel
    · rcases Nat.lt_or_ge k (n - 1 + numSwitches (n / 2)) with htop | htop
      · have hset := found₁.set (k - (n - 1)) (by omega)
        rw [show L.s + n / 2 + rightSwitchCount n + (k - (n - 1)) = L.s + k by omega] at hset
        rw [found₂.switches _ (by omega), hset]
      · have hset := found₂.set (k - (n - 1 + numSwitches (n / 2))) (by omega)
        rw [show L.s + n / 2 + rightSwitchCount n + numSwitches (n / 2) +
          (k - (n - 1 + numSwitches (n / 2))) = L.s + k by omega] at hset
        exact hset
  · exact (hinter.mono (by omega)).trans ((found₁.wires.mono (by omega)).trans
      (found₂.wires.mono (by omega)))
  · exact (hsw.mono (by omega)).trans ((found₁.switches.mono (by omega)).trans
      (found₂.switches.mono (by omega)))


theorem routes (hn : 1 ≤ n) : Routes junk n := by
  induction n using Nat.strong_induction_on with
  | _ n ih =>
    match n, hn with
    | 1, _ => exact routes_one
    | 2, _ => exact routes_two
    | m + 3, _ => exact routes_step (by omega) ih

end

end Pequin
