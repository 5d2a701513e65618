import Pequin.Lib.AlternatingChain
import Pequin.Waksman.Router
import Mathlib.Logic.Equiv.Defs

/-!
# One level of the router

The packets of a level are coloured: a packet of colour `true` goes through the lower subnetwork.
Neighbours at a switch, on the left or on the right, need different colours, and the router colours
them along alternating chains. `Records` says that the arrays of the router hold what the colours
chosen so far ask for.
-/

namespace Pequin

open AlternatingChain

/-! ## One switch -/

namespace RouteState

section
variable {α : Type} (swOffset offset index : ℕ) (a : Bool) (data : α) (st : RouteState α)

theorem wireIndex_eq : wireIndex index ((index % 2 = 1) ^^ a) = 2 * (index / 2) + a.toNat := by
  unfold wireIndex
  rcases Nat.mod_two_eq_zero_or_one index with h | h <;> cases a <;> simp [h] <;> omega

/-- The packet at `index` has the colour `a`: its switch is set accordingly, and the wire between
the switch and the subnetwork carries it. -/
def place : RouteState α :=
  { st with
    sw := Function.update st.sw (swOffset + index / 2) ⟨(index % 2 = 1) ^^ a, true⟩
    intermediate := Function.update st.intermediate (offset + (2 * (index / 2) + a.toNat)) data }

/-- The switch at `index` is set for the colour `a`, or it is free and `a` is the colour for a
switch that is not crossed. -/
def Ready : Prop :=
  st.sw (swOffset + index / 2) = ⟨(index % 2 = 1) ^^ a, true⟩ ∨
    (st.sw (swOffset + index / 2)).set = false ∧ a = decide (index % 2 = 1)

variable {swOffset index a st}

theorem follow_eq (h : st.Ready swOffset index a) :
    st.follow swOffset offset index data = (a, st.place swOffset offset index a data) := by
  have hbot : ((index % 2 = 0 && ((index % 2 = 1) ^^ a)) ||
      (index % 2 = 1 && !((index % 2 = 1) ^^ a))) = a := by
    rcases Nat.mod_two_eq_zero_or_one index with hmod | hmod <;> cases a <;> simp [hmod]
  have hsw : (if (st.sw (swOffset + index / 2)).set then st.sw
        else Function.update st.sw (swOffset + index / 2) ⟨false, true⟩) =
      Function.update st.sw (swOffset + index / 2) ⟨(index % 2 = 1) ^^ a, true⟩ := by
    rcases h with hset | ⟨hset, ha⟩
    · rw [if_pos (by rw [hset]), ← hset, Function.update_eq_self]
    · rw [if_neg (by rw [hset]; exact Bool.false_ne_true), ha, Bool.xor_self]
  simp only [follow, place, hsw, Function.update_self, hbot, wireIndex_eq]

theorem settle_eq (h : st.sw (swOffset + index / 2) = ⟨(index % 2 = 1) ^^ a, true⟩ ∨
    (st.sw (swOffset + index / 2)).set = false) :
    st.settle swOffset offset index a data = some (st.place swOffset offset index a data) := by
  have hsw : (if (st.sw (swOffset + index / 2)).set then st.sw
        else Function.update st.sw (swOffset + index / 2) ⟨(index % 2 = 1) ^^ a, true⟩) =
      Function.update st.sw (swOffset + index / 2) ⟨(index % 2 = 1) ^^ a, true⟩ := by
    rcases h with hset | hset
    · rw [if_pos (by rw [hset]), ← hset, Function.update_eq_self]
    · rw [if_neg (by rw [hset]; exact Bool.false_ne_true)]
  simp only [settle, place, hsw, Function.update_self, if_true, wireIndex_eq]

end

end RouteState

/-! ## The records of one side -/

/-- One side of a level: the places of the packets, the number of switches, and where the switches
and the wires are. Only wires of a colour with `keep` are recorded. -/
structure Side (n : ℕ) where
  perm : Equiv.Perm (Fin n)
  count : ℕ
  swOffset : ℕ
  offset : Bool → ℕ
  keep : Bool → Prop

namespace Side
variable {α : Type} {n : ℕ}

def idx (sd : Side n) (i : Fin n) : ℕ := sd.perm i

theorem idx_lt (sd : Side n) (i : Fin n) : sd.idx i < n := (sd.perm i).isLt

variable {i j : Fin n}

theorem idx_inj (sd : Side n) (h : sd.idx i = sd.idx j) : i = j :=
  sd.perm.injective (Fin.ext h)

theorem exists_idx (sd : Side n) {j : ℕ} (hj : j < n) : ∃ i, sd.idx i = j :=
  ⟨sd.perm.symm ⟨j, hj⟩, by simp [idx]⟩

def wire (sd : Side n) (i : Fin n) (a : Bool) : ℕ := sd.offset a + (2 * (sd.idx i / 2) + a.toNat)

def Neighbours (sd : Side n) (i j : Fin n) : Prop := i ≠ j ∧ sd.idx i / 2 = sd.idx j / 2

variable {sd : Side n}

theorem Neighbours.symm (h : sd.Neighbours i j) : sd.Neighbours j i :=
  ⟨h.1.symm, h.2.symm⟩

/-- The neighbour of a packet, if it is not the last of an odd number. -/
def neighbour (sd : Side n) (i : Fin n) : Option (Fin n) :=
  if h : RouteState.sibling (sd.idx i) < n then some (sd.perm.symm ⟨_, h⟩) else none

theorem idx_neighbour (h : sd.neighbour i = some j) : sd.idx j = RouteState.sibling (sd.idx i) := by
  unfold neighbour at h
  split at h
  · cases h
    simp [idx]
  · cases h

theorem neighbour_eq_some : sd.neighbour i = some j ↔ sd.Neighbours i j := by
  constructor
  · intro h
    have hidx := idx_neighbour h
    unfold RouteState.sibling at hidx
    refine ⟨?_, ?_⟩
    · rintro rfl
      split at hidx <;> omega
    · split at hidx <;> omega
  · rintro ⟨hne, hhalf⟩
    have hij : sd.idx i ≠ sd.idx j := fun heq => hne (sd.idx_inj heq)
    have hsib : RouteState.sibling (sd.idx i) = sd.idx j := by
      unfold RouteState.sibling
      split <;> omega
    have hlt := sd.idx_lt j
    rw [← hsib] at hlt
    rw [neighbour, dif_pos hlt]
    refine congrArg some (sd.perm.injective ?_)
    rw [Equiv.apply_symm_apply]
    exact Fin.ext hsib

theorem neighbour_eq_none {i : Fin n} : sd.neighbour i = none ↔ sd.idx i = n - 1 ∧ n % 2 = 1 := by
  have hlt := sd.idx_lt i
  constructor
  · intro h
    unfold neighbour at h
    split at h
    · cases h
    · rename_i hsib
      unfold RouteState.sibling at hsib
      split at hsib <;> omega
  · rintro ⟨hi, hodd⟩
    refine dif_neg ?_
    unfold RouteState.sibling
    split <;> omega

theorem matching (sd : Side n) : Matching sd.neighbour where
  symm h := neighbour_eq_some.mpr (neighbour_eq_some.mp h).symm
  irrefl h := (neighbour_eq_some.mp h).1

/-- Neighbours of different colours ask for the same setting of their switch. -/
theorem Neighbours.swap_eq (h : sd.Neighbours i j) (a : Bool) :
    ((sd.idx i % 2 = 1) ^^ !a) = ((sd.idx j % 2 = 1) ^^ a) := by
  obtain ⟨hne, hhalf⟩ := h
  have hidx : sd.idx i ≠ sd.idx j := fun heq => hne (sd.idx_inj heq)
  rcases Nat.mod_two_eq_zero_or_one (sd.idx j) with hj | hj
  · have hi : sd.idx i % 2 = 1 := by omega
    cases a <;> simp [hi, hj]
  · have hi : sd.idx i % 2 = 0 := by omega
    cases a <;> simp [hi, hj]

/-- Switches and wires are as the colours ask for. -/
structure Records (sd : Side n) (data : Fin n → α) (c : Fin n → Option Bool)
    (sw : ℕ → RoutingSwitch) (intermediate : ℕ → α) : Prop where
  set : ∀ {i a}, c i = some a → sd.idx i < sd.count * 2 →
    sw (sd.swOffset + sd.idx i / 2) = ⟨(sd.idx i % 2 = 1) ^^ a, true⟩
  unset : ∀ {k}, k < sd.count → (∀ i, sd.idx i / 2 = k → c i = none) →
    (sw (sd.swOffset + k)).set = false
  wire : ∀ {i a}, c i = some a → sd.idx i < sd.count * 2 → sd.keep a →
    intermediate (sd.wire i a) = data i

namespace Records
variable {sd : Side n} {data : Fin n → α} {c : Fin n → Option Bool} {sw sw' : ℕ → RoutingSwitch}
  {inter inter' : ℕ → α} {x : Fin n} {a : Bool} (h : sd.Records data c sw inter)
include h

/-- Other switches and wires do not matter. -/
theorem congr (hsw : ∀ k < sd.count, sw' (sd.swOffset + k) = sw (sd.swOffset + k))
    (hinter : ∀ i a, c i = some a → sd.idx i < sd.count * 2 → sd.keep a →
      inter' (sd.wire i a) = inter (sd.wire i a)) : sd.Records data c sw' inter' := by
  refine ⟨fun hi hlt => ?_, fun hk hnone => ?_, fun hi hlt hkeep => ?_⟩
  · rw [hsw _ (by omega)]
    exact h.set hi hlt
  · rw [hsw _ hk]
    exact h.unset hk hnone
  · rw [hinter _ _ hi hlt hkeep]
    exact h.wire hi hlt hkeep

/-- A packet that is not at a switch. -/
theorem skip (hx : ¬ sd.idx x < sd.count * 2) :
    sd.Records data (paint c x a) sw inter := by
  have hne : ∀ {i}, sd.idx i < sd.count * 2 → i ≠ x := by
    rintro i hi rfl
    exact hx hi
  refine ⟨fun hi hlt => ?_, fun hk hnone => ?_, fun hi hlt hkeep => ?_⟩
  · rw [paint_of_ne (hne hlt)] at hi
    exact h.set hi hlt
  · exact h.unset hk fun i hi => (paint_eq_none.mp (hnone i hi)).2
  · rw [paint_of_ne (hne hlt)] at hi
    exact h.wire hi hlt hkeep

/-- The switch of a packet without a colour: it is set for the colour the neighbour leaves, or
free. -/
theorem switch (hx : c x = none) (hlt : sd.idx x < sd.count * 2)
    (hproper : ∀ {i b}, sd.Neighbours i x → c i = some b → b = !a) :
    sw (sd.swOffset + sd.idx x / 2) = ⟨(sd.idx x % 2 = 1) ^^ a, true⟩ ∨
      (sw (sd.swOffset + sd.idx x / 2)).set = false ∧ ∀ i, sd.Neighbours i x → c i = none := by
  by_cases hfree : ∀ i, sd.Neighbours i x → c i = none
  · refine .inr ⟨h.unset (by omega) fun i hi => ?_, hfree⟩
    by_cases hix : i = x
    · exact hix ▸ hx
    · exact hfree i ⟨hix, hi⟩
  · push Not at hfree
    obtain ⟨i, hix, hi⟩ := hfree
    obtain ⟨b, hb⟩ := Option.ne_none_iff_exists'.mp hi
    obtain rfl := hproper hix hb
    have hhalf := hix.2
    refine .inl ?_
    rw [← hhalf, h.set hb (by omega), hix.swap_eq]

/-- A packet at a switch gets a colour that no neighbour has. -/
theorem place (hlt : sd.idx x < sd.count * 2)
    (hproper : ∀ {i b}, sd.Neighbours i x → c i = some b → b = !a)
    (hwire : ∀ i b, i ≠ x → c i = some b → sd.idx i < sd.count * 2 → sd.keep b →
      sd.wire i b ≠ sd.wire x a) :
    sd.Records data (paint c x a)
      (Function.update sw (sd.swOffset + sd.idx x / 2) ⟨(sd.idx x % 2 = 1) ^^ a, true⟩)
      (Function.update inter (sd.wire x a) (data x)) := by
  refine ⟨fun {i b} hi hilt => ?_, fun {k} hk hnone => ?_, fun {i b} hi hilt hkeep => ?_⟩
  · by_cases hhalf : sd.idx i / 2 = sd.idx x / 2
    · rw [hhalf, Function.update_self]
      rcases paint_eq_some.mp hi with ⟨rfl, rfl⟩ | ⟨hix, hi⟩
      · rfl
      · obtain rfl := hproper ⟨hix, hhalf⟩ hi
        rw [Neighbours.swap_eq ⟨hix, hhalf⟩]
    · have hne : i ≠ x := fun heq => hhalf (by rw [heq])
      rw [Function.update_of_ne (by omega)]
      rw [paint_of_ne hne] at hi
      exact h.set hi hilt
  · have hne : sd.idx x / 2 ≠ k := fun heq => by
      have := hnone x heq
      simp at this
    rw [Function.update_of_ne (by omega)]
    exact h.unset hk fun i hi => (paint_eq_none.mp (hnone i hi)).2
  · rcases paint_eq_some.mp hi with ⟨rfl, rfl⟩ | ⟨hix, hi⟩
    · rw [Function.update_self]
    · rw [Function.update_of_ne (hwire i b hix hi hilt hkeep)]
      exact h.wire hi hilt hkeep

end Records

end Side

/-! ## The records of a level -/

/-- A level of `n` packets: the offsets of its switches and wires, the permutation it routes, and
the data of the packets. -/
structure Level (α : Type) (n : ℕ) where
  b : ℕ
  s : ℕ
  perm : Equiv.Perm (Fin n)
  data : Fin n → α

namespace Level
variable {α : Type} {n : ℕ} (L : Level α n)

def left : Side n := ⟨1, n / 2, L.s, fun _ => L.b, fun _ => True⟩

/-- In a network of three, the upper wire on the right is the upper wire on the left, and the lower
one comes right after the wires on the left. -/
def right : Side n :=
  ⟨L.perm, rightSwitchCount n, L.s + n / 2, fun a => L.b + n / 2 * 2 - if n = 3 ∧ a then 1 else 0,
    fun a => n = 3 → a = true⟩

def packet (i : Fin n) : Packet α := ⟨L.data i, L.left.idx i / 2, L.right.idx i / 2, false⟩

/-- The numbers of wires and switches at this level. -/
def wires (_ : Level α n) : ℕ := n / 2 * 2 + rightSwitchCount n * 2 - if n = 3 then 1 else 0

def switches (_ : Level α n) : ℕ := n / 2 + rightSwitchCount n

/-- The packets of the level before it is routed. -/
structure Start (leftPkt rightPkt : ℕ → Packet α) : Prop where
  left_data : ∀ i : Fin n, (leftPkt i).data = L.data i
  left_dst : ∀ i : Fin n, (leftPkt i).dst = L.right.idx i
  left_routed : ∀ i : Fin n, (leftPkt i).routed = false
  right_data : ∀ i : Fin n, (rightPkt (L.right.idx i)).data = L.data i
  right_src : ∀ i : Fin n, (rightPkt (L.right.idx i)).src = i
  right_routed : ∀ i : Fin n, (rightPkt (L.right.idx i)).routed = false

end Level

/-- The packets on the left of the subnetwork of a colour. -/
def RouteState.subLeft {α : Type} (st : RouteState α) (a : Bool) : ℕ → Packet α :=
  if a then st.botLeft else st.topLeft

def RouteState.subRight {α : Type} (st : RouteState α) (a : Bool) : ℕ → Packet α :=
  if a then st.botRight else st.topRight

/-- From the arrays `st₀`, the packets coloured by `c` have been routed. -/
structure Level.Records {α : Type} {n : ℕ} (L : Level α n) (st₀ st : RouteState α)
    (c : Fin n → Option Bool) : Prop where
  leftPkt : ∀ i : Fin n, st.leftPkt i = { st₀.leftPkt i with routed := (c i).isSome }
  rightPkt : ∀ i : Fin n, st.rightPkt (L.right.idx i) =
    { st₀.rightPkt (L.right.idx i) with routed := (c i).isSome }
  left : L.left.Records L.data c st.sw st.intermediate
  right : L.right.Records L.data c st.sw st.intermediate
  subLeft : ∀ {i a}, c i = some a → st.subLeft a (L.left.idx i / 2) = L.packet i
  subRight : ∀ {i a}, c i = some a → st.subRight a (L.right.idx i / 2) = L.packet i
  intermediate : ∀ k, k < L.b ∨ L.b + L.wires ≤ k → st.intermediate k = st₀.intermediate k
  sw : ∀ k, k < L.s ∨ L.s + L.switches ≤ k → st.sw k = st₀.sw k

/-! ## Routing one packet -/

/-- A packet of colour `a` passes its switch, if it is at one. -/
def Side.pass {α : Type} {n : ℕ} (sd : Side n) (x : Fin n) (a : Bool) (data : α)
    (st : RouteState α) : RouteState α :=
  if sd.idx x < sd.count * 2 then st.place sd.swOffset (sd.offset a) (sd.idx x) a data else st

namespace Level
variable {α : Type} {n : ℕ} (L : Level α n)

/-- Both copies of the packet are marked. -/
def mark (x : Fin n) (st : RouteState α) : RouteState α :=
  { st with
    leftPkt := markRouted st.leftPkt (L.left.idx x)
    rightPkt := markRouted st.rightPkt (L.right.idx x) }

/-- The arrays after the packet `x` has got the colour `a`. -/
def routed (x : Fin n) (a : Bool) (st : RouteState α) : RouteState α :=
  (L.right.pass x a (L.data x) (L.left.pass x a (L.data x) (L.mark x st))).enter a (L.packet x)

@[simp] theorem count_left : L.left.count = n / 2 := rfl

@[simp] theorem count_right : L.right.count = rightSwitchCount n := rfl

@[simp] theorem swOffset_left : L.left.swOffset = L.s := rfl

@[simp] theorem swOffset_right : L.right.swOffset = L.s + n / 2 := rfl

@[simp] theorem offset_left (a : Bool) : L.left.offset a = L.b := rfl

@[simp] theorem offset_right (a : Bool) :
    L.right.offset a = L.b + n / 2 * 2 - if n = 3 ∧ a then 1 else 0 := rfl

theorem count_left_le : L.left.count * 2 ≤ n := by
  rw [count_left]
  omega

theorem count_right_le : L.right.count * 2 ≤ n := by
  rw [count_right]
  unfold rightSwitchCount
  omega

theorem wire_left {i : Fin n} (a : Bool) (h : L.left.idx i < L.left.count * 2) :
    L.b ≤ L.left.wire i a ∧ L.left.wire i a < L.b + n / 2 * 2 := by
  rw [count_left] at h
  have ha := Bool.toNat_le a
  rw [Side.wire, offset_left]
  omega

theorem wire_right {i : Fin n} (a : Bool) (h : L.right.idx i < L.right.count * 2) :
    L.b + n / 2 * 2 ≤ L.right.wire i a ∧ L.right.wire i a < L.b + L.wires := by
  rw [count_right] at h
  rw [Side.wire, offset_right, wires]
  unfold rightSwitchCount at h ⊢
  by_cases h3 : n = 3
  · subst h3
    cases a <;> simp <;> omega
  · have ha := Bool.toNat_le a
    simp only [h3, false_and, if_false]
    omega

/-- Wires of packets with colours that are allowed are different. -/
theorem wire_left_ne {i x : Fin n} {a b : Bool} (hne : i ≠ x)
    (hproper : L.left.Neighbours i x → b = !a) : L.left.wire i b ≠ L.left.wire x a := by
  rw [Side.wire, Side.wire, offset_left, offset_left]
  by_cases hhalf : L.left.idx i / 2 = L.left.idx x / 2
  · rw [hproper ⟨hne, hhalf⟩]
    cases a <;> simp [hhalf]
  · have ha := Bool.toNat_le a
    have hb := Bool.toNat_le b
    omega

theorem wire_right_ne {i x : Fin n} {a b : Bool} (hne : i ≠ x)
    (hi : L.right.idx i < L.right.count * 2) (hx : L.right.idx x < L.right.count * 2)
    (hproper : L.right.Neighbours i x → b = !a) (h3 : n = 3 → b = true ∧ a = true) :
    L.right.wire i b ≠ L.right.wire x a := by
  rw [count_right] at hi hx
  rw [Side.wire, Side.wire, offset_right, offset_right]
  by_cases hhalf : L.right.idx i / 2 = L.right.idx x / 2
  · have hb := hproper ⟨hne, hhalf⟩
    have hn : n ≠ 3 := fun hn => by
      obtain ⟨rfl, rfl⟩ := h3 hn
      cases hb
    rw [hb, hhalf]
    cases a <;> simp [hn]
  · have hn : n ≠ 3 := fun hn => by
      subst hn
      unfold rightSwitchCount at hi hx
      omega
    have ha := Bool.toNat_le a
    have hb := Bool.toNat_le b
    simp only [hn, false_and, if_false]
    omega

end Level

namespace Level
variable {α : Type} {n : ℕ} {L : Level α n} {st₀ st : RouteState α} {c : Fin n → Option Bool}
  {x : Fin n} {a : Bool}

section
variable (sd : Side n) (d : α)

@[simp] theorem pass_leftPkt : (sd.pass x a d st).leftPkt = st.leftPkt := by
  unfold Side.pass
  split <;> rfl

@[simp] theorem pass_rightPkt : (sd.pass x a d st).rightPkt = st.rightPkt := by
  unfold Side.pass
  split <;> rfl

@[simp] theorem pass_subLeft (b : Bool) : (sd.pass x a d st).subLeft b = st.subLeft b := by
  unfold Side.pass
  split <;> rfl

@[simp] theorem pass_subRight (b : Bool) : (sd.pass x a d st).subRight b = st.subRight b := by
  unfold Side.pass
  split <;> rfl

end

/-- Passing a switch changes nothing else. -/
theorem pass_frame (sd : Side n) (x : Fin n) (a : Bool) (d : α) (st : RouteState α) :
    (∀ k, (∀ j < sd.count, k ≠ sd.swOffset + j) → (sd.pass x a d st).sw k = st.sw k) ∧
      ∀ k, (sd.idx x < sd.count * 2 → k ≠ sd.wire x a) →
        (sd.pass x a d st).intermediate k = st.intermediate k := by
  unfold Side.pass
  split
  · rename_i hlt
    exact ⟨fun k hk => Function.update_of_ne (hk _ (by omega)) _ _,
      fun k hk => Function.update_of_ne (hk hlt) _ _⟩
  · exact ⟨fun _ _ => rfl, fun _ _ => rfl⟩

/-- The records of a side after a packet has passed its switch. -/
theorem pass_records {sd : Side n} {data : Fin n → α} (h : sd.Records data c st.sw st.intermediate)
    (hproper : ∀ {i b}, sd.Neighbours i x → c i = some b → b = !a)
    (hwire : ∀ i b, i ≠ x → c i = some b → sd.idx i < sd.count * 2 → sd.idx x < sd.count * 2 →
      sd.keep b → sd.wire i b ≠ sd.wire x a) :
    sd.Records data (paint c x a) (sd.pass x a (data x) st).sw
      (sd.pass x a (data x) st).intermediate := by
  unfold Side.pass
  split
  · rename_i hlt
    exact h.place hlt hproper fun i b hne hi hilt hkeep => hwire i b hne hi hilt hlt hkeep
  · rename_i hlt
    exact h.skip hlt

/-- Passing a switch on the one side does not change the records of the other. -/
theorem pass_left_right {c' : Fin n → Option Bool} {d : α}
    (h : L.right.Records L.data c' st.sw st.intermediate) :
    L.right.Records L.data c' (L.left.pass x a d st).sw (L.left.pass x a d st).intermediate := by
  obtain ⟨hsw, hinter⟩ := pass_frame L.left x a d st
  refine h.congr (fun k _ => hsw _ fun j hj => ?_) fun i b _ hi _ => hinter _ fun hx => ?_
  · rw [count_left] at hj
    rw [swOffset_left, swOffset_right]
    omega
  · have h1 := L.wire_right b hi
    have h2 := L.wire_left a hx
    omega

theorem pass_right_left {c' : Fin n → Option Bool} {d : α}
    (h : L.left.Records L.data c' st.sw st.intermediate) :
    L.left.Records L.data c' (L.right.pass x a d st).sw (L.right.pass x a d st).intermediate := by
  obtain ⟨hsw, hinter⟩ := pass_frame L.right x a d st
  refine h.congr (fun k hk => hsw _ fun j _ => ?_) fun i b _ hi _ => hinter _ fun hx => ?_
  · rw [count_left] at hk
    rw [swOffset_left, swOffset_right]
    omega
  · have h1 := L.wire_left b hi
    have h2 := L.wire_right a hx
    omega

theorem mark_pkt {pkts pkts₀ : ℕ → Packet α} (sd : Side n)
    (h : ∀ i : Fin n, pkts (sd.idx i) = { pkts₀ (sd.idx i) with routed := (c i).isSome })
    (i : Fin n) :
    markRouted pkts (sd.idx x) (sd.idx i) =
      { pkts₀ (sd.idx i) with routed := (paint c x a i).isSome } := by
  by_cases hi : i = x
  · subst hi
    simp [markRouted, h i]
  · have hidx : sd.idx i ≠ sd.idx x := fun heq => hi (sd.idx_inj heq)
    rw [markRouted, Function.update_of_ne hidx, h i, paint_of_ne hi]

section
variable (tmp : Packet α)

@[simp] theorem enter_leftPkt : (st.enter a tmp).leftPkt = st.leftPkt := by cases a <;> rfl

@[simp] theorem enter_rightPkt : (st.enter a tmp).rightPkt = st.rightPkt := by cases a <;> rfl

@[simp] theorem enter_sw : (st.enter a tmp).sw = st.sw := by cases a <;> rfl

@[simp] theorem enter_intermediate : (st.enter a tmp).intermediate = st.intermediate := by
  cases a <;> rfl

end

theorem enter_sub (st : RouteState α) (a b : Bool) (tmp : Packet α) (k : ℕ) :
    (st.enter a tmp).subLeft b k = (if b = a ∧ k = tmp.src then tmp else st.subLeft b k) ∧
      (st.enter a tmp).subRight b k = if b = a ∧ k = tmp.dst then tmp else st.subRight b k := by
  cases a <;> cases b <;>
    simp [RouteState.enter, RouteState.subLeft, RouteState.subRight, Function.update_apply]

/-- The packet has no colour yet, and its neighbours leave it the colour `a`. -/
structure Allows (L : Level α n) (c : Fin n → Option Bool) (x : Fin n) (a : Bool) : Prop where
  uncoloured : c x = none
  left : ∀ {i b}, L.left.Neighbours i x → c i = some b → b = !a
  right : ∀ {i b}, L.right.Neighbours i x → c i = some b → b = !a

/-- A packet gets a colour that its neighbours leave. -/
theorem Records.routed (h : L.Records st₀ st c) (hx : L.Allows c x a)
    (h3 : n = 3 → a = false → ∀ i, L.right.Neighbours i x → c i = none) :
    L.Records st₀ (L.routed x a st) (paint c x a) := by
  have hleftPass : L.left.Records L.data (paint c x a)
      (L.left.pass x a (L.data x) (L.mark x st)).sw
      (L.left.pass x a (L.data x) (L.mark x st)).intermediate :=
    pass_records h.left hx.left fun i b hne hi _ _ _ => L.wire_left_ne hne fun hn => hx.left hn hi
  have hrightPass : L.right.Records L.data (paint c x a)
      (L.right.pass x a (L.data x) (L.left.pass x a (L.data x) (L.mark x st))).sw
      (L.right.pass x a (L.data x) (L.left.pass x a (L.data x) (L.mark x st))).intermediate := by
    refine pass_records (pass_left_right h.right) hx.right fun i b hne hi hilt hxlt hkeep => ?_
    refine L.wire_right_ne hne hilt hxlt (fun hn => hx.right hn hi) fun hn => ⟨hkeep hn, ?_⟩
    -- in a network of three, all packets at a switch on the right are neighbours
    have hneigh : L.right.Neighbours i x := by
      refine ⟨hne, ?_⟩
      rw [count_right] at hilt hxlt
      subst hn
      unfold rightSwitchCount at hilt hxlt
      omega
    cases a with
    | true => rfl
    | false => cases (h3 hn rfl i hneigh).symm.trans hi
  have hsub : ∀ {i b}, paint c x a i = some b → i ≠ x →
      c i = some b ∧ ¬ (b = a ∧ L.left.idx i / 2 = (L.packet x).src) ∧
        ¬ (b = a ∧ L.right.idx i / 2 = (L.packet x).dst) := by
    intro i b hi hne
    rw [paint_of_ne hne] at hi
    refine ⟨hi, fun ⟨hb, hhalf⟩ => ?_, fun ⟨hb, hhalf⟩ => ?_⟩
    · have := hx.left ⟨hne, hhalf⟩ hi
      subst hb
      cases b <;> cases this
    · have := hx.right ⟨hne, hhalf⟩ hi
      subst hb
      cases b <;> cases this
  refine ⟨fun i => ?_, fun i => ?_, ?_, ?_, fun {i b} hi => ?_, fun {i b} hi => ?_, fun k hk => ?_,
    fun k hk => ?_⟩
  · simp only [Level.routed, enter_leftPkt, pass_leftPkt]
    exact mark_pkt L.left h.leftPkt i
  · simp only [Level.routed, enter_rightPkt, pass_rightPkt]
    exact mark_pkt L.right h.rightPkt i
  · simp only [Level.routed, enter_sw, enter_intermediate]
    exact pass_right_left hleftPass
  · simp only [Level.routed, enter_sw, enter_intermediate]
    exact hrightPass
  · rw [Level.routed, (enter_sub _ _ _ _ _).1]
    by_cases hne : i = x
    · subst hne
      have hb : b = a := by simpa [eq_comm] using hi
      rw [if_pos ⟨hb, rfl⟩]
    · obtain ⟨hi, hl, -⟩ := hsub hi hne
      rw [if_neg hl, pass_subLeft, pass_subLeft]
      exact h.subLeft hi
  · rw [Level.routed, (enter_sub _ _ _ _ _).2]
    by_cases hne : i = x
    · subst hne
      have hb : b = a := by simpa [eq_comm] using hi
      rw [if_pos ⟨hb, rfl⟩]
    · obtain ⟨hi, -, hr⟩ := hsub hi hne
      rw [if_neg hr, pass_subRight, pass_subRight]
      exact h.subRight hi
  · have hwires : n / 2 * 2 ≤ L.wires := by
      unfold wires rightSwitchCount
      split <;> omega
    rw [Level.routed, enter_intermediate, (pass_frame L.right ..).2 _ fun hx => ?_,
      (pass_frame L.left ..).2 _ fun hx => ?_]
    · exact h.intermediate k hk
    · have := L.wire_left a hx
      omega
    · have := L.wire_right a hx
      omega
  · rw [switches] at hk
    rw [Level.routed, enter_sw, (pass_frame L.right ..).1 _ fun j hj => ?_,
      (pass_frame L.left ..).1 _ fun j hj => ?_]
    · exact h.sw k hk
    · rw [count_left] at hj
      rw [swOffset_left]
      omega
    · rw [count_right] at hj
      rw [swOffset_right]
      omega

end Level

/-! ## The steps of the router -/

/-- The place the router goes to after the packet `x`: its neighbour, if it is at a switch. -/
def Side.nextIndex {n : ℕ} (sd : Side n) (x : Fin n) : Option ℕ :=
  if sd.idx x < sd.count * 2 then some (RouteState.sibling (sd.idx x)) else none

namespace Level
variable {α : Type} {n : ℕ} {L : Level α n} {st₀ st : RouteState α} {c : Fin n → Option Bool}
  {x : Fin n} {a : Bool}

theorem pass_comm (d : α) (st : RouteState α) :
    L.left.pass x a d (L.right.pass x a d st) = L.right.pass x a d (L.left.pass x a d st) := by
  by_cases hl : L.left.idx x < L.left.count * 2
  · by_cases hr : L.right.idx x < L.right.count * 2
    · have hsw : L.left.swOffset + L.left.idx x / 2 ≠ L.right.swOffset + L.right.idx x / 2 := by
        rw [count_left] at hl
        rw [swOffset_left, swOffset_right]
        omega
      have hwire : L.left.wire x a ≠ L.right.wire x a := by
        have h1 := L.wire_left a hl
        have h2 := L.wire_right a hr
        omega
      simp only [Side.wire] at hwire
      simp only [Side.pass, if_pos hl, if_pos hr, RouteState.place, Function.update_comm hsw,
        Function.update_comm hwire]
    · simp only [Side.pass, if_neg hr]
  · simp only [Side.pass, if_neg hl]

section
variable (h : L.Records st₀ st c) (hstart : L.Start st₀.leftPkt st₀.rightPkt) (hx : c x = none)
include h hstart hx

/-- What the router reads of a packet that is not routed yet. -/
theorem Records.leftPkt_eq : (st.leftPkt x).data = L.data x ∧ (st.leftPkt x).dst = L.right.idx x ∧
    (st.leftPkt x).routed = false := by
  rw [h.leftPkt x, hx]
  exact ⟨hstart.left_data x, hstart.left_dst x, rfl⟩

theorem Records.rightPkt_eq : (st.rightPkt (L.right.idx x)).data = L.data x ∧
    (st.rightPkt (L.right.idx x)).src = L.left.idx x ∧
    (st.rightPkt (L.right.idx x)).routed = false := by
  rw [h.rightPkt x, hx]
  exact ⟨hstart.right_data x, hstart.right_src x, rfl⟩

end

/-- The last packet on the right gets the colour `true`. -/
theorem firstSwitch_eq (hn : 2 ≤ n) (d : α) (st : RouteState α) :
    st.firstSwitch n L.b L.s (L.left.idx x) d =
      (L.left.pass x true d st, L.left.nextIndex x) := by
  have hlt : L.left.idx x < n := L.left.idx_lt x
  unfold RouteState.firstSwitch
  rcases Nat.mod_two_eq_zero_or_one (L.left.idx x) with heven | hodd
  · rw [if_neg (by omega)]
    by_cases hlast : L.left.idx x = n - 1
    · have hl : ¬ L.left.idx x < L.left.count * 2 := by
        rw [count_left]
        omega
      rw [if_pos hlast, Side.pass, Side.nextIndex, if_neg hl, if_neg hl]
    · have hl : L.left.idx x < L.left.count * 2 := by
        rw [count_left]
        omega
      have hwire : 2 * (L.left.idx x / 2) + 1 = L.left.idx x + 1 := by omega
      rw [if_neg hlast, Side.pass, Side.nextIndex, if_pos hl, if_pos hl]
      simp [RouteState.place, RouteState.sibling, heven, hwire]
  · have hl : L.left.idx x < L.left.count * 2 := by
      rw [count_left]
      omega
    have hwire : 2 * (L.left.idx x / 2) + 1 = L.left.idx x := by omega
    rw [if_pos hodd, Side.pass, Side.nextIndex, if_pos hl, if_pos hl]
    simp [RouteState.place, RouteState.sibling, hodd, hwire]

theorem first_eq (hn : 2 ≤ n) (hstart : L.Start st.leftPkt st.rightPkt)
    (hx : L.right.idx x = n - 1) :
    st.first n L.b L.s = (L.routed x true st, L.left.nextIndex x) := by
  have hsrc : (st.rightPkt (n - 1)).src = L.left.idx x := by
    rw [← hx]
    exact hstart.right_src x
  have hdata := hstart.right_data x
  have hrouted := hstart.right_routed x
  rw [hx] at hdata hrouted
  have hright : ¬ L.right.idx x < L.right.count * 2 := by
    rw [count_right, hx]
    unfold rightSwitchCount
    omega
  have hpass : L.right.pass x true (L.data x) (L.left.pass x true (L.data x) (L.mark x st)) =
      L.left.pass x true (L.data x) (L.mark x st) := if_neg hright
  have hdst : (n + 1) / 2 - 1 = L.right.idx x / 2 := by omega
  have hmark : { st with
      rightPkt := markRouted st.rightPkt (n - 1)
      leftPkt := markRouted st.leftPkt (L.left.idx x) } = L.mark x st := by
    rw [mark, hx]
  rw [routed, hpass]
  simp only [RouteState.first, hsrc, hmark, hdata, hrouted, hdst, firstSwitch_eq hn]
  rfl

/-- The links on the left and on the right. -/
theorem left_link : ¬ L.left.idx x < L.left.count * 2 ↔ L.left.idx x = n - 1 ∧ n % 2 = 1 := by
  have hlt := L.left.idx_lt x
  rw [count_left]
  omega

theorem right_link (hn : 2 ≤ n) : ¬ L.right.idx x < L.right.count * 2 ↔
    L.right.idx x = n - 1 ∨ L.right.idx x = n - 2 ∧ n % 2 = 0 := by
  have hlt := L.right.idx_lt x
  rw [count_right]
  unfold rightSwitchCount
  omega

theorem leaveLeft_eq {d : α} (hlink : ¬ L.left.idx x < L.left.count * 2 → a = true)
    (hready : L.left.idx x < L.left.count * 2 → st.Ready L.left.swOffset (L.left.idx x) a) :
    st.leaveLeft n L.b L.s (L.left.idx x) d = (a, L.left.pass x a d st) := by
  unfold RouteState.leaveLeft
  by_cases hl : L.left.idx x < L.left.count * 2
  · rw [if_neg fun h => left_link.mpr h hl, Side.pass, if_pos hl]
    exact RouteState.follow_eq _ _ (hready hl)
  · rw [if_pos (left_link.mp hl), Side.pass, if_neg hl, hlink hl]

theorem arriveLeft_eq {d : α} (hset : L.left.idx x < L.left.count * 2 →
      st.sw (L.left.swOffset + L.left.idx x / 2) = ⟨(L.left.idx x % 2 = 1) ^^ a, true⟩ ∨
        (st.sw (L.left.swOffset + L.left.idx x / 2)).set = false) :
    st.arriveLeft n L.b L.s (L.left.idx x) a d =
      some (L.left.pass x a d st, L.left.nextIndex x) := by
  unfold RouteState.arriveLeft
  by_cases hl : L.left.idx x < L.left.count * 2
  · have hsettle := RouteState.settle_eq L.b d (hset hl)
    rw [swOffset_left] at hsettle
    rw [if_neg fun h => left_link.mpr h hl, Side.pass, Side.nextIndex, if_pos hl,
      if_pos hl, hsettle]
    rfl
  · rw [if_pos (left_link.mp hl), Side.pass, Side.nextIndex, if_neg hl, if_neg hl]

theorem arriveRight_eq (hn : 2 ≤ n) {d : α} (h3 : n = 3 → a = false)
    (hset : L.right.idx x < L.right.count * 2 →
      st.sw (L.right.swOffset + L.right.idx x / 2) = ⟨(L.right.idx x % 2 = 1) ^^ a, true⟩ ∨
        (st.sw (L.right.swOffset + L.right.idx x / 2)).set = false) :
    st.arriveRight n L.b L.s (L.right.idx x) a d =
      some (L.right.pass x a d st, L.right.nextIndex x) := by
  unfold RouteState.arriveRight
  by_cases hr : L.right.idx x < L.right.count * 2
  · have hoffset : L.right.offset a = L.b + n / 2 * 2 := by
      by_cases hn3 : n = 3
      · simp [h3 hn3]
      · simp [hn3]
    have hsettle := RouteState.settle_eq (L.b + n / 2 * 2) d (hset hr)
    rw [swOffset_right] at hsettle
    rw [if_neg fun h => (right_link hn).mpr h hr, Side.pass, Side.nextIndex, if_pos hr, if_pos hr,
      hoffset, hsettle]
    rfl
  · rw [if_pos ((right_link hn).mp hr), Side.pass, Side.nextIndex, if_neg hr, if_neg hr]

theorem leaveRight_eq (hn : 2 ≤ n) {d : α} (hr : L.right.idx x < L.right.count * 2)
    (h3 : n = 3 → a = true) (hready : st.Ready L.right.swOffset (L.right.idx x) a) :
    st.leaveRight n L.b L.s (L.right.idx x) d = (a, L.right.pass x a d st) := by
  have hoffset : L.right.offset a = L.b + n / 2 * 2 - if n = 3 then 1 else 0 := by
    by_cases hn3 : n = 3
    · simp [hn3, h3 hn3]
    · simp [hn3]
  unfold RouteState.leaveRight
  rw [if_neg fun h => (right_link hn).mpr (.inr h) hr, Side.pass, if_pos hr, hoffset]
  exact RouteState.follow_eq _ _ hready

/-- The router takes a packet from the left to the right. It may choose the colour if the switch on
the left is free. -/
theorem leftToRight_eq (hn : 2 ≤ n) (hstart : L.Start st₀.leftPkt st₀.rightPkt)
    (h : L.Records st₀ st c) (hx : L.Allows c x a)
    (hlink : ¬ L.left.idx x < L.left.count * 2 → a = true)
    (hfree : (∀ i, L.left.Neighbours i x → c i = none) → L.left.idx x < L.left.count * 2 →
      a = decide (L.left.idx x % 2 = 1)) (h3 : n = 3 → a = false) :
    st.leftToRight n L.b L.s (L.left.idx x) = some (L.routed x a st, L.right.nextIndex x) := by
  obtain ⟨hdata, hdst, hrouted⟩ := h.leftPkt_eq hstart hx.uncoloured
  have hleave : (L.mark x st).leaveLeft n L.b L.s (L.left.idx x) (L.data x) =
      (a, L.left.pass x a (L.data x) (L.mark x st)) := by
    refine leaveLeft_eq hlink fun hl => ?_
    exact (h.left.switch hx.uncoloured hl hx.left).imp_right fun ⟨hset, hnone⟩ =>
      ⟨hset, hfree hnone hl⟩
  have harrive : (L.left.pass x a (L.data x) (L.mark x st)).arriveRight n L.b L.s (L.right.idx x) a
      (L.data x) = some (L.right.pass x a (L.data x) (L.left.pass x a (L.data x) (L.mark x st)),
        L.right.nextIndex x) := by
    refine arriveRight_eq hn h3 fun hr => ?_
    rw [(pass_frame L.left x a (L.data x) (L.mark x st)).1 _ fun j hj => ?_]
    · exact (h.right.switch hx.uncoloured hr hx.right).imp_right And.left
    · rw [count_left] at hj
      rw [swOffset_left, swOffset_right]
      omega
  have hmark : { st with
      leftPkt := markRouted st.leftPkt (L.left.idx x)
      rightPkt := markRouted st.rightPkt (L.right.idx x) } = L.mark x st := rfl
  have hidx : st.leftPkt (L.left.idx x) = st.leftPkt x := rfl
  simp only [RouteState.leftToRight, hidx, hdata, hdst, hrouted, hmark, hleave, harrive,
    Option.map_some]
  rfl

/-- The router takes a packet from the right to the left. -/
theorem rightToLeft_eq (hn : 2 ≤ n) (hstart : L.Start st₀.leftPkt st₀.rightPkt)
    (h : L.Records st₀ st c) (hx : L.Allows c x a) (hr : L.right.idx x < L.right.count * 2)
    (hfree : (∀ i, L.right.Neighbours i x → c i = none) → a = decide (L.right.idx x % 2 = 1))
    (h3 : n = 3 → a = true) :
    st.rightToLeft n L.b L.s (L.right.idx x) = some (L.routed x a st, L.left.nextIndex x) := by
  obtain ⟨hdata, hsrc, hrouted⟩ := h.rightPkt_eq hstart hx.uncoloured
  have hleave : (L.mark x st).leaveRight n L.b L.s (L.right.idx x) (L.data x) =
      (a, L.right.pass x a (L.data x) (L.mark x st)) := by
    refine leaveRight_eq hn hr h3 ?_
    exact (h.right.switch hx.uncoloured hr hx.right).imp_right fun ⟨hset, hnone⟩ =>
      ⟨hset, hfree hnone⟩
  have harrive : (L.right.pass x a (L.data x) (L.mark x st)).arriveLeft n L.b L.s (L.left.idx x) a
      (L.data x) = some (L.left.pass x a (L.data x) (L.right.pass x a (L.data x) (L.mark x st)),
        L.left.nextIndex x) := by
    refine arriveLeft_eq fun hl => ?_
    rw [(pass_frame L.right x a (L.data x) (L.mark x st)).1 _ fun j _ => ?_]
    · exact (h.left.switch hx.uncoloured hl hx.left).imp_right And.left
    · rw [count_left] at hl
      rw [swOffset_left, swOffset_right]
      omega
  have hmark : { st with
      leftPkt := markRouted st.leftPkt (L.left.idx x)
      rightPkt := markRouted st.rightPkt (L.right.idx x) } = L.mark x st := rfl
  simp only [RouteState.rightToLeft, hdata, hsrc, hrouted, hmark, hleave, harrive, pass_comm,
    Option.map_some]
  rfl

end Level

end Pequin
