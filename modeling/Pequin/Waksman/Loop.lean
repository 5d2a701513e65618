import Pequin.Waksman.Level

/-!
# The loop of the router

The loop takes packets from the left to the right and back along alternating chains. For an even
number of packets the first chain starts at the last packet on the right and ends at the last but
one, and further chains start and end on the right; for an odd number it ends at the last packet on
the left, and further chains start and end on the left. In the end every packet has a colour.
-/

namespace Pequin

open AlternatingChain

/-! ## The next packet -/

namespace RouteState

variable {α : Type} {pkts : ℕ → Packet α} {n : ℕ}

theorem pick_of_unrouted {i : ℕ} (h : (pkts i).routed = false) : pick pkts n (some i) = some i := by
  have hfilter : (some i).filter (fun i => !(pkts i).routed) = some i := by
    rw [Option.filter_some, if_pos (by rw [h]; rfl)]
  simp only [pick, hfilter]

/-- Without a next packet, the first one that is not routed is taken. -/
theorem pick_search {nextIndex : Option ℕ} (h : ∀ i, nextIndex = some i → (pkts i).routed = true) :
    (pick pkts n nextIndex = none ∧ ∀ i < n, (pkts i).routed = true) ∨
      ∃ j < n, pick pkts n nextIndex = some j ∧ (pkts j).routed = false ∧
        ∀ i < j, (pkts i).routed = true := by
  have hfilter : nextIndex.filter (fun i => !(pkts i).routed) = none := by
    cases nextIndex with
    | none => rfl
    | some i => simp [h i rfl]
  have hpick : pick pkts n nextIndex = (List.range n).find? fun i => !(pkts i).routed := by
    simp only [pick, hfilter]
  rw [hpick]
  cases hfind : (List.range n).find? fun i => !(pkts i).routed with
  | none =>
    refine .inl ⟨rfl, fun i hi => ?_⟩
    simpa using List.find?_eq_none.mp hfind i (List.mem_range.mpr hi)
  | some j =>
    obtain ⟨hj, hlt, hbefore⟩ := List.find?_range_eq_some.mp hfind
    refine .inr ⟨j, List.mem_range.mp hlt, rfl, by simpa using hj, fun i hi => ?_⟩
    simpa using hbefore i hi

end RouteState

namespace Level
variable {α : Type} {n : ℕ} {L : Level α n} {st₀ st : RouteState α} {c : Fin n → Option Bool}
  {x y d e : Fin n} {a σ far : Bool}

theorem left_on (h : L.left.neighbour x = some y) : L.left.idx x < L.left.count * 2 := by
  by_contra hl
  rw [Side.neighbour_eq_none.mpr (left_link.mp hl)] at h
  cases h

/-- A packet is at a switch on the right if neither it nor its neighbour is the last one. -/
theorem right_on (hn : 2 ≤ n) (hx : L.right.idx x ≠ n - 1) (he : L.right.neighbour x = some e)
    (hlast : L.right.idx e ≠ n - 1) : L.right.idx x < L.right.count * 2 := by
  by_contra hr
  rcases (right_link hn).mp hr with h | ⟨h, heven⟩
  · exact hx h
  · have hidx := Side.idx_neighbour he
    rw [h, RouteState.sibling, if_neg (by omega)] at hidx
    omega

theorem nextIndex_eq {sd : Side n} (he : sd.neighbour x = some e) (hon : sd.idx x < sd.count * 2) :
    sd.nextIndex x = some (sd.idx e) := by
  rw [Side.nextIndex, if_pos hon, Side.idx_neighbour he]

theorem allows_of_proper (hx : c x = none) (hleft : Proper L.left.neighbour (paint c x a))
    (hright : Proper L.right.neighbour (paint c x a)) : L.Allows c x a := by
  refine ⟨hx, fun {i b} hi hb => ?_, fun {i b} hi hb => ?_⟩
  · exact hleft (Side.neighbour_eq_some.mpr hi.symm) paint_self (by rw [paint_of_ne hi.1, hb])
  · exact hright (Side.neighbour_eq_some.mpr hi.symm) paint_self (by rw [paint_of_ne hi.1, hb])

theorem allows_of_closed (h : Closed L.left.neighbour L.right.neighbour c) (hx : c x = none)
    (a : Bool) : L.Allows c x a := by
  refine ⟨hx, fun {i b} hi hb => ?_, fun {i b} hi hb => ?_⟩
  · cases (h.pending₁ hx (Side.neighbour_eq_some.mpr hi.symm)).symm.trans hb
  · cases (h.pending₂ hx (Side.neighbour_eq_some.mpr hi.symm)).symm.trans hb

/-! ## Half a pass -/

section
variable (hn : 2 ≤ n) (hstart : L.Start st₀.leftPkt st₀.rightPkt) (hrec : L.Records st₀ st c)
include hn hstart hrec

/-- A chain that has reached a packet on the left goes on to the right. -/
theorem chain_leftToRight (h : Chain L.left.neighbour L.right.neighbour c σ x d far)
    (h3 : n = 3 → σ = true ∧ far = false) :
    st.leftToRight n L.b L.s (L.left.idx x) = some (L.routed x (!σ) st, L.right.nextIndex x) ∧
      L.Records st₀ (L.routed x (!σ) st) (paint c x !σ) := by
  obtain ⟨y, hxy, hy⟩ := h.arrived
  obtain ⟨hp₁, hp₂⟩ := h.proper_paint L.left.matching L.right.matching
  have hx := allows_of_proper h.reached hp₁ hp₂
  refine ⟨leftToRight_eq hn hstart hrec hx (fun hl => absurd (left_on hxy) hl) (fun hfree _ => ?_)
    fun h => by rw [(h3 h).1]; rfl, hrec.routed hx fun h3' _ i hi => ?_⟩
  · cases (hfree y (Side.neighbour_eq_some.mp hxy).symm).symm.trans hy
  · cases hci : c i with
    | none => rfl
    | some b =>
      have hxd := h.pending₂ h.reached (Side.neighbour_eq_some.mpr hi.symm) hci
      obtain rfl := (h3 h3').2
      exact absurd hxd h.ne_of_near

/-- A chain that has reached a packet on the right goes on to the left. -/
theorem chain_rightToLeft (h : Chain L.right.neighbour L.left.neighbour c σ x d far)
    (hr : L.right.idx x < L.right.count * 2) (h3 : n = 3 → σ = false) :
    st.rightToLeft n L.b L.s (L.right.idx x) = some (L.routed x (!σ) st, L.left.nextIndex x) ∧
      L.Records st₀ (L.routed x (!σ) st) (paint c x !σ) := by
  obtain ⟨y, hxy, hy⟩ := h.arrived
  obtain ⟨hp₁, hp₂⟩ := h.proper_paint L.right.matching L.left.matching
  have hx := allows_of_proper h.reached hp₂ hp₁
  refine ⟨rightToLeft_eq hn hstart hrec hx hr (fun hfree => ?_) fun h => by rw [h3 h]; rfl,
    hrec.routed hx fun h ha => ?_⟩
  · cases (hfree y (Side.neighbour_eq_some.mp hxy).symm).symm.trans hy
  · rw [h3 h] at ha
    cases ha

/-- A new chain starts on the left. -/
theorem closed_leftToRight (h : Closed L.left.neighbour L.right.neighbour c) (hx : c x = none)
    (heven : L.left.idx x % 2 = 0) :
    st.leftToRight n L.b L.s (L.left.idx x) = some (L.routed x false st, L.right.nextIndex x) ∧
      L.Records st₀ (L.routed x false st) (paint c x false) := by
  have hallows := allows_of_closed h hx false
  refine ⟨leftToRight_eq hn hstart hrec hallows (fun hl => ?_) (fun _ _ => by simp [heven])
    fun _ => rfl, hrec.routed hallows fun _ _ i hi => ?_⟩
  · exact absurd (Side.neighbour_eq_none.mpr (left_link.mp hl)) (h.matched hx).1
  · exact h.pending₂ hx (Side.neighbour_eq_some.mpr hi.symm)

/-- A new chain starts on the right. -/
theorem closed_rightToLeft (h : Closed L.left.neighbour L.right.neighbour c) (hx : c x = none)
    (hr : L.right.idx x < L.right.count * 2) (heven : L.right.idx x % 2 = 0) (h3 : n ≠ 3) :
    st.rightToLeft n L.b L.s (L.right.idx x) = some (L.routed x false st, L.left.nextIndex x) ∧
      L.Records st₀ (L.routed x false st) (paint c x false) := by
  have hallows := allows_of_closed h hx false
  exact ⟨rightToLeft_eq hn hstart hrec hallows hr (fun _ => by simp [heven]) fun h => absurd h h3,
    hrec.routed hallows fun h => absurd h h3⟩

end

/-! ## The search for a new chain -/

/-- Without a next packet, the search finds the first one without a colour, if there is one. -/
theorem pick_first (sd : Side n) {pkts : ℕ → Packet α} {nextIndex : Option ℕ}
    (hpkts : ∀ i, (pkts (sd.idx i)).routed = (c i).isSome)
    (hnext : ∀ i, nextIndex = some i → (pkts i).routed = true) :
    (RouteState.pick pkts n nextIndex = none ∧ ∀ i, c i ≠ none) ∨
      ∃ x, RouteState.pick pkts n nextIndex = some (sd.idx x) ∧ c x = none ∧
        ∀ i, sd.idx i < sd.idx x → c i ≠ none := by
  have hcolour : ∀ i, (pkts (sd.idx i)).routed = true → c i ≠ none := fun i hi => by
    rw [hpkts i] at hi
    exact Option.isSome_iff_ne_none.mp hi
  rcases RouteState.pick_search hnext with ⟨hpick, hall⟩ | ⟨j, hj, hpick, hunrouted, hbefore⟩
  · exact .inl ⟨hpick, fun i => hcolour i (hall _ (sd.idx_lt i))⟩
  · obtain ⟨x, rfl⟩ := sd.exists_idx hj
    rw [hpkts x] at hunrouted
    exact .inr ⟨x, hpick, Option.isSome_eq_false_iff.mp hunrouted |> Option.isNone_iff_eq_none.mp,
      fun i hi => hcolour i (hbefore _ hi)⟩

/-- The next packet is routed if the neighbour has a colour. -/
theorem nextIndex_routed {sd : Side n} (hcount : sd.count * 2 ≤ n) {pkts : ℕ → Packet α}
    (hpkts : ∀ i, (pkts (sd.idx i)).routed = (c i).isSome)
    (hcoloured : ∀ {y}, sd.neighbour x = some y → c y ≠ none) (i : ℕ)
    (hi : sd.nextIndex x = some i) : (pkts i).routed = true := by
  by_cases hon : sd.idx x < sd.count * 2
  · have hsib : RouteState.sibling (sd.idx x) < n := by
      unfold RouteState.sibling
      split <;> omega
    have hy : sd.neighbour x = some (sd.perm.symm ⟨_, hsib⟩) := dif_pos hsib
    rw [nextIndex_eq hy hon] at hi
    cases hi
    rw [hpkts]
    exact Option.isSome_iff_ne_none.mpr (hcoloured hy)
  · rw [Side.nextIndex, if_neg hon] at hi
    cases hi

/-- The first packet without a colour is the upper one at its switch. -/
theorem first_even {sd : Side n} (hpending : ∀ {y}, sd.neighbour x = some y → c y = none)
    (hmatched : sd.neighbour x ≠ none) (hfirst : ∀ i, sd.idx i < sd.idx x → c i ≠ none) :
    sd.idx x % 2 = 0 := by
  obtain ⟨y, hy⟩ := Option.ne_none_iff_exists'.mp hmatched
  have hidx := Side.idx_neighbour hy
  by_contra hodd
  rw [RouteState.sibling, if_pos (by omega)] at hidx
  exact hfirst y (by omega) (hpending hy)

theorem Records.left_routed (h : L.Records st₀ st c) (i : Fin n) :
    (st.leftPkt (L.left.idx i)).routed = (c i).isSome := congrArg Packet.routed (h.leftPkt i)

theorem Records.right_routed (h : L.Records st₀ st c) (i : Fin n) :
    (st.rightPkt (L.right.idx i)).routed = (c i).isSome := congrArg Packet.routed (h.rightPkt i)

/-! ## The whole loop -/

/-- Every packet has a colour, and neighbours have different ones. The last packet on the right, and
the last one of an odd number on the left, go through the lower subnetwork. -/
structure Routed (L : Level α n) (st₀ st : RouteState α) (c : Fin n → Bool) : Prop where
  records : L.Records st₀ st fun i => some (c i)
  left : ∀ {i j}, L.left.Neighbours i j → c j = !c i
  right : ∀ {i j}, L.right.Neighbours i j → c j = !c i
  right_last : ∀ {i}, L.right.idx i = n - 1 → c i = true
  left_last : ∀ {i}, n % 2 = 1 → L.left.idx i = n - 1 → c i = true

theorem Records.all_routed (h : L.Records st₀ st c) (hall : ∀ i, c i ≠ none)
    (hleft : Proper L.left.neighbour c) (hright : Proper L.right.neighbour c)
    (hlast : ∀ {i}, L.right.idx i = n - 1 → c i = some true)
    (hlink : ∀ {i}, n % 2 = 1 → L.left.idx i = n - 1 → c i = none ∨ c i = some true) :
    ∃ c', L.Routed st₀ st c' := by
  have hc : c = fun i => some ((c i).getD false) := by
    funext i
    obtain ⟨a, ha⟩ := Option.ne_none_iff_exists'.mp (hall i)
    rw [ha]
    rfl
  have hget : ∀ i, c i = some ((c i).getD false) := congrFun hc
  refine ⟨fun i => (c i).getD false, hc ▸ h, fun {i j} hij => ?_, fun {i j} hij => ?_, fun hi => ?_,
    fun hodd hi => ?_⟩
  · exact hleft (Side.neighbour_eq_some.mpr hij) (hget i) (hget j)
  · exact hright (Side.neighbour_eq_some.mpr hij) (hget i) (hget j)
  · rw [hlast hi]
    rfl
  · rw [(hlink hodd hi).resolve_left (hall _)]
    rfl

section
variable (hn : 3 ≤ n) (hstart : L.Start st₀.leftPkt st₀.rightPkt)
include hn hstart

/-- The loop for an even number of packets. -/
theorem loop_even (heven : n % 2 = 0) (fuel : ℕ) (hrec : L.Records st₀ st c)
    (h : Chain L.left.neighbour L.right.neighbour c σ x d true)
    (hlast : ∀ {i}, L.right.idx i = n - 1 → c i = some true) (hfuel : (uncoloured c).card < fuel) :
    ∃ st' c', st.loop n L.b L.s fuel (some (L.left.idx x)) = some st' ∧ L.Routed st₀ st' c' := by
  induction fuel generalizing st c σ x d with
  | zero => omega
  | succ fuel ih =>
    have h3 : n ≠ 3 := by omega
    have hpick : RouteState.pick st.leftPkt n (some (L.left.idx x)) = some (L.left.idx x) :=
      RouteState.pick_of_unrouted (by rw [hrec.left_routed, h.reached]; rfl)
    obtain ⟨hstep, hrec₁⟩ := chain_leftToRight (by omega) hstart hrec h fun h => absurd h h3
    have hcard := card_uncoloured_paint (a := !σ) h.reached
    have hlast₁ : ∀ {i}, L.right.idx i = n - 1 → paint c x (!σ) i = some true :=
      fun hi => paint_keeps h.reached (hlast hi)
    have hne₁ : ∀ {i}, paint c x (!σ) i = none → L.right.idx i ≠ n - 1 := fun hi heq => by
      cases hi.symm.trans (hlast₁ heq)
    by_cases hxd : x = d
    · subst hxd
      have hclosed := h.close L.left.matching L.right.matching
      have hnext := nextIndex_routed L.count_right_le hrec₁.right_routed fun hy =>
        hclosed.coloured L.right.matching paint_ne_none hy
      rcases pick_first L.right hrec₁.right_routed hnext with
        ⟨hpick₁, hall⟩ | ⟨x₁, hpick₁, hx₁, hfirst⟩
      · obtain ⟨c', hrouted⟩ := hrec₁.all_routed hall hclosed.proper₁ hclosed.proper₂ hlast₁
          fun hodd => by omega
        refine ⟨_, c', ?_, hrouted⟩
        simp only [RouteState.loop, hpick, hstep, Option.bind_some, hpick₁]
      · obtain ⟨hleft, hright⟩ := hclosed.matched hx₁
        obtain ⟨e, he⟩ := Option.ne_none_iff_exists'.mp hleft
        obtain ⟨w, hw⟩ := Option.ne_none_iff_exists'.mp hright
        have hon := right_on (by omega) (hne₁ hx₁) hw (hne₁ (hclosed.pending₂ hx₁ hw))
        obtain ⟨hstep₂, hrec₂⟩ := closed_rightToLeft (by omega) hstart hrec₁ hclosed hx₁ hon
          (first_even (hclosed.pending₂ hx₁) hright hfirst) h3
        have hcard₂ := card_uncoloured_paint (a := false) hx₁
        obtain ⟨st', c', hloop, hrouted⟩ := ih hrec₂
          (hclosed.symm.start L.right.matching L.left.matching hx₁ false hw he)
          (fun hi => paint_keeps hx₁ (hlast₁ hi)) (by omega)
        refine ⟨st', c', ?_, hrouted⟩
        simp only [RouteState.loop, hpick, hstep, Option.bind_some, hpick₁, hstep₂,
          nextIndex_eq he (left_on he), hloop]
    · obtain ⟨e, he, hce⟩ := h.next hxd
      have h₁ := h.step L.left.matching L.right.matching hxd he hce
      have hxlast : L.right.idx x ≠ n - 1 := fun heq => by cases h.reached.symm.trans (hlast heq)
      have helast := hne₁ h₁.reached
      have hpick₁ : RouteState.pick (L.routed x (!σ) st).rightPkt n (some (L.right.idx e)) =
          some (L.right.idx e) :=
        RouteState.pick_of_unrouted (by rw [hrec₁.right_routed, h₁.reached]; rfl)
      obtain ⟨hstep₂, hrec₂⟩ := chain_rightToLeft (by omega) hstart hrec₁ h₁
        (right_on (by omega) helast (L.right.matching.symm he) hxlast) fun h => absurd h h3
      have hcard₂ := card_uncoloured_paint (a := !!σ) h₁.reached
      obtain ⟨e', he', hce'⟩ := h₁.next h₁.ne_of_near
      obtain ⟨st', c', hloop, hrouted⟩ := ih hrec₂
        (h₁.step L.right.matching L.left.matching h₁.ne_of_near he' hce')
        (fun hi => paint_keeps h₁.reached (hlast₁ hi)) (by omega)
      refine ⟨st', c', ?_, hrouted⟩
      simp only [RouteState.loop, hpick, hstep, Option.bind_some,
        nextIndex_eq he (right_on (by omega) hxlast he helast), hpick₁, hstep₂,
        nextIndex_eq he' (left_on he'), hloop]

/-- The head of the loop for an odd number of packets: a chain has reached a packet on the left, or
all chains are closed. -/
def OddHead (L : Level α n) (st : RouteState α) (c : Fin n → Option Bool) (nextIndex : Option ℕ) :
    Prop :=
  (∃ x d, Chain L.left.neighbour L.right.neighbour c true x d false ∧
      nextIndex = some (L.left.idx x)) ∨
    Closed L.left.neighbour L.right.neighbour c ∧
      ∀ i, nextIndex = some i → (st.leftPkt i).routed = true

/-- The first half of a pass for an odd number of packets. -/
theorem OddHead.leftToRight (hrec : L.Records st₀ st c) {nextIndex : Option ℕ}
    (h : L.OddHead st c nextIndex) :
    (RouteState.pick st.leftPkt n nextIndex = none ∧ (∀ i, c i ≠ none) ∧
        Proper L.left.neighbour c ∧ Proper L.right.neighbour c) ∨
      ∃ x e d, RouteState.pick st.leftPkt n nextIndex = some (L.left.idx x) ∧ c x = none ∧
        L.left.neighbour x ≠ none ∧ L.right.neighbour x = some e ∧
        st.leftToRight n L.b L.s (L.left.idx x) =
          some (L.routed x false st, L.right.nextIndex x) ∧
        L.Records st₀ (L.routed x false st) (paint c x false) ∧
        Chain L.right.neighbour L.left.neighbour (paint c x false) false e d true := by
  rcases h with ⟨x, d, h, rfl⟩ | ⟨h, hnext⟩
  · obtain ⟨hstep, hrec₁⟩ := chain_leftToRight (by omega) hstart hrec h fun _ => ⟨rfl, rfl⟩
    obtain ⟨y, hxy, -⟩ := h.arrived
    obtain ⟨e, he, hce⟩ := h.next h.ne_of_near
    refine .inr ⟨x, e, d, RouteState.pick_of_unrouted ?_, h.reached, by simp [hxy], he, hstep,
      hrec₁, h.step L.left.matching L.right.matching h.ne_of_near he hce⟩
    rw [hrec.left_routed, h.reached]
    rfl
  · rcases pick_first L.left hrec.left_routed hnext with ⟨hpick, hall⟩ | ⟨x, hpick, hx, hfirst⟩
    · exact .inl ⟨hpick, hall, h.proper₁, h.proper₂⟩
    · obtain ⟨hleft, hright⟩ := h.matched hx
      obtain ⟨d, hd⟩ := Option.ne_none_iff_exists'.mp hleft
      obtain ⟨e, he⟩ := Option.ne_none_iff_exists'.mp hright
      obtain ⟨hstep, hrec₁⟩ := closed_leftToRight (by omega) hstart hrec h hx
        (first_even (h.pending₁ hx) hleft hfirst)
      exact .inr ⟨x, e, d, hpick, hx, hleft, he, hstep, hrec₁,
        h.start L.left.matching L.right.matching hx false hd he⟩

/-- The loop for an odd number of packets. -/
theorem loop_odd (hodd : n % 2 = 1) (fuel : ℕ) {nextIndex : Option ℕ} (hrec : L.Records st₀ st c)
    (h : L.OddHead st c nextIndex) (hlast : ∀ {i}, L.right.idx i = n - 1 → c i = some true)
    (hlink : ∀ {i}, L.left.idx i = n - 1 → c i = none ∨ c i = some true)
    (hfuel : (uncoloured c).card < fuel) :
    ∃ st' c', st.loop n L.b L.s fuel nextIndex = some st' ∧ L.Routed st₀ st' c' := by
  induction fuel generalizing st c nextIndex with
  | zero => omega
  | succ fuel ih =>
    rcases h.leftToRight hn hstart hrec with ⟨hpick, hall, hp₁, hp₂⟩ |
      ⟨x, e, d, hpick, hx, hleft, he, hstep, hrec₁, h₁⟩
    · obtain ⟨c', hrouted⟩ := hrec.all_routed hall hp₁ hp₂ hlast fun _ => hlink
      refine ⟨st, c', ?_, hrouted⟩
      simp only [RouteState.loop, hpick]
    · have hcard := card_uncoloured_paint (a := false) hx
      have hlast₁ : ∀ {i}, L.right.idx i = n - 1 → paint c x false i = some true :=
        fun hi => paint_keeps hx (hlast hi)
      have hxlast : L.right.idx x ≠ n - 1 := fun heq => by cases hx.symm.trans (hlast heq)
      have helast : L.right.idx e ≠ n - 1 := fun heq => by
        cases h₁.reached.symm.trans (hlast₁ heq)
      have hpick₁ : RouteState.pick (L.routed x false st).rightPkt n (some (L.right.idx e)) =
          some (L.right.idx e) :=
        RouteState.pick_of_unrouted (by rw [hrec₁.right_routed, h₁.reached]; rfl)
      obtain ⟨hstep₂, hrec₂⟩ := chain_rightToLeft (by omega) hstart hrec₁ h₁
        (right_on (by omega) helast (L.right.matching.symm he) hxlast) fun _ => rfl
      rw [Bool.not_false] at hstep₂ hrec₂
      have hcard₂ := card_uncoloured_paint (a := true) h₁.reached
      have hhead : L.OddHead (L.routed e true (L.routed x false st))
          (paint (paint c x false) e true) (L.left.nextIndex e) := by
        by_cases hed : e = d
        · subst hed
          have hclosed := h₁.close L.right.matching L.left.matching
          exact .inr ⟨hclosed.symm, nextIndex_routed L.count_left_le hrec₂.left_routed fun hy =>
            hclosed.coloured L.left.matching paint_ne_none hy⟩
        · obtain ⟨e', he', hce'⟩ := h₁.next hed
          exact .inl ⟨e', d, h₁.step L.right.matching L.left.matching hed he' hce',
            nextIndex_eq he' (left_on he')⟩
      have hlink₂ : ∀ {i}, L.left.idx i = n - 1 → paint (paint c x false) e true i = none ∨
          paint (paint c x false) e true i = some true := by
        intro i hi
        by_cases hie : i = e
        · exact .inr (by rw [hie, paint_self])
        · have hix : i ≠ x := by
            rintro rfl
            exact hleft (Side.neighbour_eq_none.mpr ⟨hi, hodd⟩)
          rw [paint_of_ne hie, paint_of_ne hix]
          exact hlink hi
      obtain ⟨st', c', hloop, hrouted⟩ := ih hrec₂ hhead
        (fun hi => paint_keeps h₁.reached (hlast₁ hi)) hlink₂ (by omega)
      refine ⟨st', c', ?_, hrouted⟩
      simp only [RouteState.loop, hpick, hstep, Option.bind_some,
        nextIndex_eq he (right_on (by omega) hxlast he helast), hpick₁, hstep₂, hloop]

omit hn in
/-- Before the first packet is routed. -/
theorem records_start (hunset : ∀ k < L.switches, (st₀.sw (L.s + k)).set = false) :
    L.Records st₀ st₀ fun _ => none := by
  have hswitches : L.switches = n / 2 + rightSwitchCount n := rfl
  refine ⟨fun i => ?_, fun i => ?_, ⟨nofun, fun {k} hk _ => ?_, nofun⟩,
    ⟨nofun, fun {k} hk _ => ?_, nofun⟩, nofun, nofun, fun _ _ => rfl, fun _ _ => rfl⟩
  · rw [Option.isSome_none, ← hstart.left_routed i]
  · rw [Option.isSome_none, ← hstart.right_routed i]
  · rw [count_left] at hk
    exact hunset k (by omega)
  · rw [count_right] at hk
    rw [swOffset_right, Nat.add_assoc]
    exact hunset _ (by omega)

/-- One level of the router gives every packet a colour. -/
theorem exists_routed (hunset : ∀ k < L.switches, (st₀.sw (L.s + k)).set = false) :
    ∃ st c, (st₀.first n L.b L.s).1.loop n L.b L.s n (st₀.first n L.b L.s).2 = some st ∧
      L.Routed st₀ st c := by
  obtain ⟨x, hx⟩ := L.right.exists_idx (show n - 1 < n by omega)
  have hunique : ∀ {i}, L.right.idx i = n - 1 → i = x := fun hi => L.right.idx_inj
    (hi.trans hx.symm)
  have hallows : L.Allows (fun _ => none) x true := ⟨rfl, nofun, nofun⟩
  have hrec := (records_start hstart hunset).routed hallows fun _ h => by cases h
  have hlast : ∀ {i}, L.right.idx i = n - 1 → paint (fun _ => none) x true i = some true := by
    intro i hi
    rw [hunique hi, paint_self]
  have hcard : (uncoloured (paint (fun _ => none) x true)).card < n := by
    have h := card_uncoloured_paint (c := fun _ : Fin n => none) (x := x) (a := true) rfl
    have hle := Finset.card_le_univ (uncoloured (P := Fin n) fun _ => none)
    rw [Fintype.card_fin] at hle
    omega
  rw [first_eq (by omega) hstart hx]
  rcases Nat.mod_two_eq_zero_or_one n with heven | hodd
  · have hmatched : ∀ (sd : Side n) (i : Fin n), sd.neighbour i ≠ none := fun sd i h => by
      have := (Side.neighbour_eq_none.mp h).2
      omega
    obtain ⟨e, he⟩ := Option.ne_none_iff_exists'.mp (hmatched L.left x)
    obtain ⟨d, hd⟩ := Option.ne_none_iff_exists'.mp (hmatched L.right x)
    have hclosed : Closed L.right.neighbour L.left.neighbour (fun _ => none) :=
      ⟨fun _ _ => rfl, fun _ _ => rfl, fun _ => ⟨hmatched _ _, hmatched _ _⟩, nofun, nofun⟩
    have hchain := hclosed.start L.right.matching L.left.matching rfl true hd he
    simp only [nextIndex_eq he (left_on he)]
    exact loop_even hn hstart heven n hrec hchain hlast hcard
  · obtain ⟨d, hd⟩ := L.left.exists_idx (show n - 1 < n by omega)
    have hfree : ∀ {sd : Side n} {y : Fin n}, sd.idx y = n - 1 →
        ∀ z, sd.neighbour z = none ↔ z = y := fun {sd y} hy z => by
      refine Side.neighbour_eq_none.trans ⟨fun h => sd.idx_inj (h.1.trans hy.symm), ?_⟩
      rintro rfl
      exact ⟨hy, hodd⟩
    have hlink : ∀ {i}, L.left.idx i = n - 1 → paint (fun _ => none) x true i = none ∨
        paint (fun _ => none) x true i = some true := by
      intro i _
      by_cases hi : i = x
      · exact .inr (by rw [hi, paint_self])
      · exact .inl (by rw [paint_of_ne hi])
    refine loop_odd hn hstart hodd n hrec ?_ hlast hlink hcard
    by_cases hxd : x = d
    · subst hxd
      refine .inr ⟨Closed.first L.left.matching L.right.matching (hfree hx) (hfree hd) true,
        fun i hi => ?_⟩
      rw [Side.nextIndex, if_neg (left_link.mpr ⟨hd, hodd⟩)] at hi
      cases hi
    · obtain ⟨e, he⟩ := Option.ne_none_iff_exists'.mp fun h => hxd ((hfree hd x).mp h)
      exact .inl ⟨e, d, Chain.first L.left.matching L.right.matching (hfree hx) (hfree hd) hxd true
        he, nextIndex_eq he (left_on he)⟩

end

end Level

end Pequin
