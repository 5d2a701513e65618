import Pequin.Waksman.Routing

/-!
# The packets are sorted

`sortPacket` gives every memory operation its place in the input and in the order by address and
timestamp. The packets on the right are those on the left at their places, so they can be routed,
and the outputs are the inputs in this order.
-/

namespace Pequin

/-! ## The order -/

def MemOp.Before (a b : MemOp ℤ) : Prop := a.addr < b.addr ∨ a.addr = b.addr ∧ a.ts < b.ts

theorem MemOp.before_iff {a b : MemOp ℤ} : a.before b = true ↔ a.Before b := by
  unfold MemOp.before MemOp.Before
  split <;> simp <;> omega

/-- With different addresses or timestamps, one of two operations comes first. -/
theorem MemOp.before_of_not_before {a b : MemOp ℤ} (h : ¬ b.Before a)
    (hne : (a.addr, a.ts) ≠ (b.addr, b.ts)) : a.Before b := by
  unfold MemOp.Before at h ⊢
  rw [Ne, Prod.mk.injEq] at hne
  omega

section
variable (input : List (MemOp ℤ))

def indexedPackets : List (Packet (MemOp ℤ)) := input.mapIdx fun i data => ⟨data, i, 0, false⟩

def sortedPackets : List (Packet (MemOp ℤ)) :=
  (indexedPackets input).mergeSort fun a b => !b.data.before a.data

def rankedPackets : List (Packet (MemOp ℤ)) :=
  (sortedPackets input).mapIdx fun i packet => { packet with dst := i }

theorem sortPacket_eq :
    sortPacket input = (rankedPackets input).mergeSort fun a b => a.src ≤ b.src := rfl

theorem sortedPackets_perm : (sortedPackets input).Perm (indexedPackets input) :=
  List.mergeSort_perm _ _

theorem sortedPackets_pairwise :
    (sortedPackets input).Pairwise fun a b => ¬ b.data.Before a.data := by
  have hsort := @List.pairwise_mergeSort _ (fun a b : Packet (MemOp ℤ) => !b.data.before a.data)
    ?_ ?_ (indexedPackets input)
  · refine hsort.imp fun {a b} h hb => ?_
    rw [MemOp.before_iff.mpr hb] at h
    cases h
  · intro a b c hab hbc
    simp only [Bool.not_eq_true', ← Bool.not_eq_true, MemOp.before_iff, MemOp.Before] at hab hbc ⊢
    omega
  · intro a b
    simp only [Bool.or_eq_true, Bool.not_eq_true', ← Bool.not_eq_true, MemOp.before_iff,
      MemOp.Before]
    omega

theorem length_sortedPackets : (sortedPackets input).length = input.length := by
  rw [(sortedPackets_perm input).length_eq, indexedPackets, List.length_mapIdx]

theorem map_data_indexedPackets : (indexedPackets input).map Packet.data = input := by
  refine List.ext_getElem? fun i => ?_
  rw [indexedPackets, List.getElem?_map, List.getElem?_mapIdx, Option.map_map]
  exact Option.map_id'

theorem map_src_indexedPackets :
    (indexedPackets input).map Packet.src = List.range input.length := by
  refine List.ext_getElem (by simp [indexedPackets]) fun i hi _ => ?_
  simp [indexedPackets]

theorem map_src_rankedPackets :
    (rankedPackets input).map Packet.src = (sortedPackets input).map Packet.src := by
  refine List.ext_getElem? fun i => ?_
  rw [rankedPackets, List.getElem?_map, List.getElem?_mapIdx, Option.map_map, List.getElem?_map]
  rfl

/-- The packets are in the order of the input again. -/
theorem map_src_sortPacket : (sortPacket input).map Packet.src = List.range input.length := by
  refine List.Perm.eq_of_pairwise' (r := (· ≤ ·)) ?_ List.pairwise_le_range ?_
  · have hsort := @List.pairwise_mergeSort _ (fun a b : Packet (MemOp ℤ) => a.src ≤ b.src)
      (by simp only [decide_eq_true_eq]; omega)
      (by simp only [Bool.or_eq_true, decide_eq_true_eq]; omega) (rankedPackets input)
    rw [sortPacket_eq, List.pairwise_map]
    exact hsort.imp fun h => of_decide_eq_true h
  · calc ((sortPacket input).map Packet.src).Perm ((rankedPackets input).map Packet.src) :=
        (List.mergeSort_perm _ _).map _
      _ = (sortedPackets input).map Packet.src := map_src_rankedPackets input
      _ |>.Perm ((indexedPackets input).map Packet.src) := (sortedPackets_perm input).map _
      _ = List.range input.length := map_src_indexedPackets input

end

/-! ## The packets on both sides -/

section
variable {input : List (MemOp ℤ)} {p : Packet (MemOp ℤ)}

theorem rank_of_mem (hp : p ∈ sortPacket input) :
    (sortedPackets input)[p.dst]? = some ⟨p.data, p.src, 0, false⟩ ∧ p.routed = false ∧
      input[p.src]? = some p.data := by
  have hmem : p ∈ rankedPackets input := (List.mergeSort_perm _ _).mem_iff.mp hp
  obtain ⟨j, hj, rfl⟩ := List.mem_mapIdx.mp hmem
  have hsorted := (sortedPackets_perm input).mem_iff.mp (List.getElem_mem hj)
  obtain ⟨i, hi, he⟩ := List.mem_mapIdx.mp hsorted
  rw [List.getElem?_eq_getElem hj, ← he]
  exact ⟨rfl, rfl, List.getElem?_eq_getElem hi⟩

variable (input) (junk : Packet (MemOp ℤ))

def leftPackets (i : ℕ) : Packet (MemOp ℤ) := (sortPacket input)[i]?.getD junk

def rightPackets : ℕ → Packet (MemOp ℤ) :=
  (List.range input.length).foldl
    (fun right i => Function.update right (leftPackets input junk i).dst (leftPackets input junk i))
    fun _ => junk

variable {input} {i j : ℕ}

section
variable (hi : i < input.length)
include hi

theorem leftPackets_mem :
    leftPackets input junk i ∈ sortPacket input ∧ (leftPackets input junk i).src = i := by
  have hsrc := congrArg (fun l => l[i]?) (map_src_sortPacket input)
  rw [List.getElem?_map, List.getElem?_range hi] at hsrc
  obtain ⟨p, hp, he⟩ := Option.map_eq_some_iff.mp hsrc
  rw [leftPackets, hp]
  exact ⟨List.mem_of_getElem? hp, he⟩

/-- A packet is in the sorted list at its destination. -/
theorem leftPackets_rank :
    (sortedPackets input)[(leftPackets input junk i).dst]? =
      some ⟨(leftPackets input junk i).data, i, 0, false⟩ := by
  obtain ⟨hmem, hsrc⟩ := leftPackets_mem junk hi
  have hrank := (rank_of_mem hmem).1
  rwa [hsrc] at hrank

theorem leftPackets_dst_lt :
    (leftPackets input junk i).dst < input.length := by
  rw [← length_sortedPackets]
  exact (List.getElem?_eq_some_iff.mp (leftPackets_rank junk hi)).1

theorem leftPackets_dst_inj (hj : j < input.length)
    (h : (leftPackets input junk i).dst = (leftPackets input junk j).dst) : i = j := by
  have hrank := leftPackets_rank junk hi
  rw [h, leftPackets_rank junk hj] at hrank
  exact (congrArg Packet.src (Option.some.inj hrank)).symm

end

/-- Writing to different places keeps what was written. -/
theorem foldl_update_self {β : Type} {g : ℕ → ℕ} {v : ℕ → β} {n : ℕ} (f : ℕ → β)
    (hinj : ∀ i < n, ∀ j < n, g i = g j → i = j) (hi : i < n) :
    (List.range n).foldl (fun f i => Function.update f (g i) (v i)) f (g i) = v i := by
  induction n with
  | zero => exact absurd hi (Nat.not_lt_zero i)
  | succ n ih =>
    rw [List.range_succ, List.foldl_append]
    by_cases he : i = n
    · rw [he]
      exact Function.update_self _ _ _
    · have hne : g i ≠ g n := fun h => he (hinj i hi n (Nat.lt_succ_self n) h)
      refine (Function.update_of_ne hne _ _).trans (ih ?_ (by omega))
      exact fun i hi j hj => hinj i (by omega) j (by omega)

theorem rightPackets_dst (hi : i < input.length) :
    rightPackets input junk (leftPackets input junk i).dst = leftPackets input junk i :=
  foldl_update_self _ (fun _ hi _ hj => leftPackets_dst_inj junk hi hj) hi

variable (input)

/-- The permutation that sorts the input. -/
noncomputable def sortPerm : Equiv.Perm (Fin input.length) :=
  Equiv.ofBijective (fun i => ⟨(leftPackets input junk i).dst, leftPackets_dst_lt junk i.isLt⟩)
    (Finite.injective_iff_bijective.mp fun i j h =>
      Fin.ext (leftPackets_dst_inj junk i.isLt j.isLt (Fin.mk.inj h)))

theorem routable_packets :
    Routable input.length (leftPackets input junk) (rightPackets input junk) := by
  refine ⟨sortPerm input junk, fun i => (leftPackets input junk i).data, fun i => rfl, fun i => rfl,
    fun i => ?_, fun i => ?_, fun i => ?_, fun i => ?_⟩
  · exact (rank_of_mem (leftPackets_mem junk i.isLt).1).2.1
  · exact congrArg Packet.data (rightPackets_dst junk i.isLt)
  · exact (congrArg Packet.src (rightPackets_dst junk i.isLt)).trans (leftPackets_mem junk i.isLt).2
  · exact (congrArg Packet.routed (rightPackets_dst junk i.isLt)).trans
      (rank_of_mem (leftPackets_mem junk i.isLt).1).2.1

theorem leftPackets_data (hi : i < input.length) :
    input[i]? = some (leftPackets input junk i).data := by
  obtain ⟨hmem, hsrc⟩ := leftPackets_mem junk hi
  have hdata := (rank_of_mem hmem).2.2
  rwa [hsrc] at hdata

/-- The outputs are the sorted inputs. -/
theorem map_rightPackets : ((List.range input.length).map fun i => (rightPackets input junk i).data)
    = (sortedPackets input).map Packet.data := by
  refine List.ext_getElem (by simp [length_sortedPackets]) fun j hj _ => ?_
  rw [List.length_map, List.length_range] at hj
  obtain ⟨i, hi⟩ := (sortPerm input junk).surjective ⟨j, hj⟩
  have hdst : (leftPackets input junk i).dst = j := congrArg Fin.val hi
  have hrank := leftPackets_rank junk i.isLt
  rw [hdst] at hrank
  obtain ⟨hlt, he⟩ := List.getElem?_eq_some_iff.mp hrank
  rw [List.getElem_map, List.getElem_map, List.getElem_range, he, ← hdst,
    rightPackets_dst junk i.isLt]

theorem rightPackets_data (hi : i < input.length) :
    ((sortedPackets input).map Packet.data)[i]? = some (rightPackets input junk i).data := by
  rw [← map_rightPackets input junk, List.getElem?_map, List.getElem?_range hi]
  rfl

theorem sorted_perm : ((sortedPackets input).map Packet.data).Perm input := by
  have h := (sortedPackets_perm input).map Packet.data
  rwa [map_data_indexedPackets] at h

theorem sorted_pairwise (h : input.Pairwise fun a b => (a.addr, a.ts) ≠ (b.addr, b.ts)) :
    ((sortedPackets input).map Packet.data).Pairwise MemOp.Before := by
  have hne := ((sorted_perm input).pairwise_iff fun {a b} h => h.symm).mpr h
  have hsorted := (List.pairwise_map (f := Packet.data) (R := fun a b : MemOp ℤ =>
    ¬ b.Before a)).mpr
    (sortedPackets_pairwise input)
  exact hsorted.imp₂ (fun a b hab hne => MemOp.before_of_not_before hab hne) hne

/-- `wakRoute` ends; its switches and its inner wires carry the inputs to the sorted outputs. -/
theorem exists_wakRoute (hwidth : 2 ≤ input.length) (intermediate : ℕ → MemOp ℤ)
    (sw : ℕ → RoutingSwitch) :
    ∃ intermediate' sw', wakRoute junk input intermediate sw =
        some (intermediate', (sortedPackets input).map Packet.data, sw') ∧
      (∀ k < numSwitches input.length, (sw' k).set = true) ∧
      Flows intermediate' (fun k => (sw' k).swap) input.length 0 0
        (fun i => (leftPackets input junk i).data) (fun j => (rightPackets input junk j).data) ∧
      SameOutside intermediate intermediate' 0 (numIntermediate input.length) := by
  obtain ⟨intermediate', sw', hroute, hfound⟩ := routes (by omega) (leftPackets input junk)
    (rightPackets input junk) intermediate
    (fun i => if i < numSwitches input.length then { sw i with set := false } else sw i) 0 0
    (routable_packets input junk) fun k hk => by rw [Nat.zero_add, if_pos hk]
  refine ⟨intermediate', sw', ?_, fun k hk => ?_, hfound.flows, hfound.wires⟩
  · rw [← map_rightPackets input junk, wakRoute, if_neg (by omega)]
    show Option.map _ (route junk (leftPackets input junk) (rightPackets input junk) _ _ 0 0 _) = _
    rw [hroute]
    rfl
  · have hset := hfound.set k hk
    rwa [Nat.zero_add] at hset

end

end Pequin
