import Pequin.Lib.WriteBuffer
import Pequin.Storage.Bits

/-!
# The asynchronous block store

A `put` pushes a pair to a queue, from which a writer thread pops pairs and writes them to the
database. A `get` first takes all pairs out of the queue, writes them, and then reads the database.

The pair that the writer has popped and not yet written is in neither place. A `get` of its key does
not find it, and newer pairs of the key may be written before it. If no `get` takes out the queue
while the writer has a pair of a key, the store is read-your-writes at that key.
-/

namespace Pequin.AsyncStore

open Storage WriteBuffer

structure State where
  /-- `kv_pairs_to_write` -/
  queue : List (Bits × Bits)
  /-- What the writer has popped and not written. -/
  writer : Option (Bits × Bits)
  /-- The key of the `get` that is running and what it still has to write. -/
  client : Option (Bits × List (Bits × Bits))
  db : List UInt8 → Option (List UInt8)

/-- The atomic steps of the two threads. -/
inductive Event
  /-- `put`: `Push`. -/
  | push (key value : Bits)
  /-- The beginning of `get`: `FlushQueue`. -/
  | flush (key : Bits)
  /-- `synchronousPut` of the next pair in `get`. -/
  | clientPut
  /-- The end of `get`: `getVal`. -/
  | read
  /-- `Pop` -/
  | pop
  /-- `synchronousPut` in `writeKVPairsToDisk`. -/
  | writerPut

def synchronousPut (db : List UInt8 → Option (List UInt8)) (pair : Bits × Bits) :
    List UInt8 → Option (List UInt8) :=
  Function.update db (bitsToByteArray pair.1) (some (bitsToByteArray pair.2))

def getVal (db : List UInt8 → Option (List UInt8)) (key : Bits) : Option Bits :=
  (db (bitsToByteArray key)).map byteArrayToBits

/-- A step, if it is possible. -/
def step (s : State) : Event → Option State
  | .push key value =>
    if s.client.isNone then some { s with queue := s.queue ++ [(key, value)] } else none
  | .flush key =>
    if s.client.isNone then some { s with queue := [], client := some (key, s.queue) } else none
  | .clientPut =>
    match s.client with
    | some (key, pair :: remaining) =>
      some { s with client := some (key, remaining), db := synchronousPut s.db pair }
    | _ => none
  | .read =>
    match s.client with
    | some (_, []) => some { s with client := none }
    | _ => none
  | .pop =>
    match s.writer, s.queue with
    | none, pair :: queue => some { s with queue, writer := some pair }
    | _, _ => none
  | .writerPut =>
    match s.writer with
    | some pair => some { s with writer := none, db := synchronousPut s.db pair }
    | none => none

def run (s : State) (events : List Event) : Option State := events.foldlM step s

def opened (db : List UInt8 → Option (List UInt8)) : State := ⟨[], none, none, db⟩

section

variable {s s' : State} {K : List UInt8} {bytes : List UInt8} {events : List Event}

theorem run_append (events' : List Event) : run s (events ++ events') = (run s events).bind
    (run · events') :=
  List.foldlM_append

theorem run_snoc (e : Event) : run s (events ++ [e]) = (run s events).bind (step · e) := by
  rw [run_append]
  congr 1
  funext s
  exact bind_pure _

/-- What a step does. -/
theorem step_cases {e : Event} (h : step s e = some s') :
    (∃ key value, e = .push key value ∧ s.client = none ∧
      s' = { s with queue := s.queue ++ [(key, value)] }) ∨
    (∃ key, e = .flush key ∧ s.client = none ∧
      s' = { s with queue := [], client := some (key, s.queue) }) ∨
    (∃ key pair remaining, e = .clientPut ∧ s.client = some (key, pair :: remaining) ∧
      s' = { s with client := some (key, remaining), db := synchronousPut s.db pair }) ∨
    (∃ key, e = .read ∧ s.client = some (key, []) ∧ s' = { s with client := none }) ∨
    (∃ pair queue, e = .pop ∧ s.writer = none ∧ s.queue = pair :: queue ∧
      s' = { s with queue, writer := some pair }) ∨
    ∃ pair, e = .writerPut ∧ s.writer = some pair ∧
      s' = { s with writer := none, db := synchronousPut s.db pair } := by
  cases e with
  | push key value =>
    simp only [step, Option.isNone_iff_eq_none, Option.ite_none_right_eq_some] at h
    exact .inl ⟨key, value, rfl, h.1, (Option.some.inj h.2).symm⟩
  | flush key =>
    simp only [step, Option.isNone_iff_eq_none, Option.ite_none_right_eq_some] at h
    exact .inr <| .inl ⟨key, rfl, h.1, (Option.some.inj h.2).symm⟩
  | clientPut =>
    simp only [step] at h
    split at h
    next key pair remaining hclient =>
      exact .inr <| .inr <| .inl ⟨key, pair, remaining, rfl, hclient, (Option.some.inj h).symm⟩
    next => nomatch h
  | read =>
    simp only [step] at h
    split at h
    next key hclient =>
      exact .inr <| .inr <| .inr <| .inl ⟨key, rfl, hclient, (Option.some.inj h).symm⟩
    next => nomatch h
  | pop =>
    simp only [step] at h
    split at h
    next pair queue hwriter hqueue =>
      exact .inr <| .inr <| .inr <| .inr <| .inl
        ⟨pair, queue, rfl, hwriter, hqueue, (Option.some.inj h).symm⟩
    next => nomatch h
  | writerPut =>
    simp only [step] at h
    split at h
    next pair hwriter =>
      exact .inr <| .inr <| .inr <| .inr <| .inr ⟨pair, rfl, hwriter, (Option.some.inj h).symm⟩
    next => nomatch h

def entry (pair : Bits × Bits) : List UInt8 × List UInt8 :=
  (bitsToByteArray pair.1, bitsToByteArray pair.2)

/-- The pairs that are not yet written, in the order in which the threads have taken them. -/
def State.pending (s : State) : List (Bits × Bits) :=
  s.writer.toList ++ (s.client.elim [] Prod.snd ++ s.queue)

/-- What the database will have when all pairs are written. -/
def State.contents (s : State) : List UInt8 → Option (List UInt8) :=
  overlay s.db (s.pending.map entry)

theorem State.contents_push (key value : Bits) :
    { s with queue := s.queue ++ [(key, value)] }.contents =
      Function.update s.contents (bitsToByteArray key) (some (bitsToByteArray value)) := by
  rw [State.contents, State.pending, ← List.append_assoc, ← List.append_assoc, List.map_append,
    List.map_singleton, overlay_snoc, List.append_assoc]
  rfl

/-- The writer has no pair of a key. -/
def State.Free (s : State) (K : List UInt8) : Prop := ∀ pair ∈ s.writer, bitsToByteArray pair.1 ≠ K

theorem State.Free.forall_mem (h : s.Free K) : ∀ p ∈ s.writer.toList.map entry, p.1 ≠ K := by
  intro p hp
  obtain ⟨pair, hpair, rfl⟩ := List.mem_map.1 hp
  exact h pair (Option.mem_toList.1 hpair)

/-- Everything that was put under a key will be read, and while a `get` runs, all of it is in the
database or in the hands of the `get`. -/
structure Settles (K bytes : List UInt8) (s : State) : Prop where
  contents : s.contents K = some bytes
  queue : s.client.isSome → s.queue = []
  free : s.client.isSome → s.Free K

/-- The other events keep what will be read, if no `get` begins while the writer has a pair of the
key. -/
theorem Settles.step {e : Event} (h : Settles K bytes s) (he : step s e = some s')
    (hpush : ∀ key value, e = .push key value → bitsToByteArray key ≠ K)
    (hflush : ∀ key, e = .flush key → s.Free K) : Settles K bytes s' := by
  obtain ⟨hcontents, hqueue, hfree⟩ := h
  obtain ⟨key, value, rfl, hclient, rfl⟩ | ⟨key, rfl, hclient, rfl⟩ |
    ⟨key, pair, remaining, rfl, hclient, rfl⟩ | ⟨key, rfl, hclient, rfl⟩ |
    ⟨pair, queue, rfl, hwriter, hq, rfl⟩ | ⟨pair, rfl, hwriter, rfl⟩ := step_cases he
  · refine ⟨?_, fun h => ?_, fun h => ?_⟩
    · rw [State.contents_push, Function.update_of_ne (hpush key value rfl).symm, hcontents]
    · rw [hclient] at h
      cases h
    · rw [hclient] at h
      cases h
  · refine ⟨?_, fun _ => rfl, fun _ => hflush key rfl⟩
    rw [State.contents, State.pending, hclient] at hcontents
    rw [State.contents, State.pending, Option.elim_some, List.append_nil]
    exact hcontents
  · have hfree := hfree (by rw [hclient]; rfl)
    refine ⟨?_, fun _ => hqueue (by rw [hclient]; rfl), fun _ => hfree⟩
    -- the write is made before that of the writer, which is to another key
    rw [State.contents, State.pending, hclient, List.map_append,
      overlay_append_of_ne hfree.forall_mem] at hcontents
    rw [State.contents, State.pending, List.map_append, overlay_append_of_ne hfree.forall_mem]
    exact hcontents
  · refine ⟨?_, (nomatch ·), (nomatch ·)⟩
    rw [State.contents, State.pending, hclient] at hcontents
    exact hcontents
  · have hclient : s.client = none := by
      by_contra hsome
      rw [hqueue (Option.isSome_iff_ne_none.2 hsome)] at hq
      cases hq
    refine ⟨?_, fun h => ?_, fun h => ?_⟩
    · rw [State.contents, State.pending, hclient, hwriter, hq] at hcontents
      rw [State.contents, State.pending, hclient]
      exact hcontents
    · rw [hclient] at h
      cases h
    · rw [hclient] at h
      cases h
  · refine ⟨?_, hqueue, fun _ _ hpair => nomatch hpair⟩
    rw [State.contents, State.pending, hwriter] at hcontents
    exact hcontents

/-- What a `get` reads at its end. -/
theorem Settles.getVal {key value : Bits}
    (h : Settles (bitsToByteArray key) (bitsToByteArray value) s)
    (hclient : s.client = some (key, [])) (hvalue : 8 ∣ value.length) : getVal s.db key =
      some value := by
  obtain ⟨hcontents, hqueue, hfree⟩ := h
  have hsome : s.client.isSome := by rw [hclient]; rfl
  rw [State.contents, State.pending, hqueue hsome, hclient, List.map_append,
    overlay_append_of_ne (hfree hsome).forall_mem] at hcontents
  have hdb : s.db (bitsToByteArray key) = some (bitsToByteArray value) := hcontents
  rw [AsyncStore.getVal, hdb, Option.map_some, byteArrayToBits_of_dvd hvalue]

/-- A `put` settles its key. -/
theorem settles_push {key value : Bits} (h : step s (.push key value) = some s') :
    Settles (bitsToByteArray key) (bitsToByteArray value) s' := by
  simp only [step, Option.isNone_iff_eq_none, Option.ite_none_right_eq_some] at h
  obtain ⟨hclient, h⟩ := h
  obtain rfl := Option.some.inj h
  refine ⟨?_, fun h => ?_, fun h => ?_⟩
  · rw [State.contents_push, Function.update_self]
  · rw [hclient] at h
    cases h
  · rw [hclient] at h
    cases h

/-- No `get` of the events begins while the writer has a pair of the key. -/
def Calm (K : List UInt8) (s : State) (events : List Event) : Prop :=
  ∀ before key after s', events = before ++ Event.flush key :: after → run s before =
    some s' → s'.Free K

theorem Settles.run (h : Settles K bytes s) (hrun : run s events = some s')
    (hpush : ∀ key value, Event.push key value ∈ events → bitsToByteArray key ≠ K)
    (hcalm : Calm K s events) : Settles K bytes s' := by
  induction events using List.reverseRecOn generalizing s' with
  | nil =>
    obtain rfl := Option.some.inj hrun
    exact h
  | append_singleton events e ih =>
    rw [run_snoc, Option.bind_eq_some_iff] at hrun
    obtain ⟨s₁, hrun, he⟩ := hrun
    have h₁ : Settles K bytes s₁ := by
      refine ih hrun (fun key value hmem => hpush key value (List.mem_append_left _ hmem)) ?_
      intro before key after s₂ heq
      exact hcalm before key (after ++ [e]) s₂ (by rw [heq, List.append_assoc, List.cons_append])
    refine h₁.step he (fun key value heq => ?_) fun key heq => ?_
    · exact hpush key value (heq ▸ List.mem_append_right _ List.mem_cons_self)
    · exact hcalm events key [] s₁ (heq ▸ rfl) hrun

end

/-- A `get` reads what the last `put` of its key has put, if no `get` has begun since then while the
writer had a pair of the key, the value has whole bytes, and no other key was put that has the same
whole bytes. -/
theorem getVal_of_put {db : List UInt8 → Option (List UInt8)} {before after : List Event}
    {key value : Bits} {s s' : State} (hput : run (opened db) (before ++ [.push key value]) =
      some s)
    (hrun : run s after = some s') (hlast : ∀ value', .push key value' ∉ after)
    (hget : s'.client = some (key, [])) (hcalm : Calm (bitsToByteArray key) s after)
    (hvalue : 8 ∣ value.length)
    (hkeys : ∀ key' value', .push key' value' ∈ after → bitsToByteArray key' = bitsToByteArray key →
      key' = key) : getVal s'.db key = some value := by
  rw [run_snoc, Option.bind_eq_some_iff] at hput
  obtain ⟨s₀, -, hput⟩ := hput
  have hpush : ∀ key' value', Event.push key' value' ∈ after →
      bitsToByteArray key' ≠ bitsToByteArray key := by
    intro key' value' hmem heq
    exact hlast value' (hkeys key' value' hmem heq ▸ hmem)
  exact ((settles_push hput).run hrun hpush hcalm).getVal hget hvalue

/-- A step before calm events is calm unless it begins a `get`. -/
theorem Calm.cons {K : List UInt8} {s : State} {e : Event} {events : List Event}
    (hfree : ∀ key, e = .flush key → s.Free K)
    (hrest : ∀ s', step s e = some s' → Calm K s' events) : Calm K s (e :: events) := by
  intro before key after s' heq hbefore
  cases before with
  | nil =>
    obtain ⟨rfl, -⟩ := List.cons.inj heq
    obtain rfl := Option.some.inj hbefore
    exact hfree key rfl
  | cons e' before =>
    obtain ⟨rfl, hevents⟩ := List.cons.inj heq
    obtain ⟨s₁, hstep, hbefore⟩ := Option.bind_eq_some_iff.1 hbefore
    exact hrest s₁ hstep before key after s' hevents hbefore

def keyA : Bits := List.replicate 8 false

def keyB : Bits := List.replicate 8 true

def writerEvents : List Event := [.writerPut, .pop, .writerPut, .push keyB keyA, .pop, .flush keyA]

/-- The writer has an old pair of the key when the new one is put, writes both, and has a pair of
another key when the `get` begins. -/
theorem getVal_of_put_writer : ∃ s s' : State,
    run (opened fun _ => none) ([.push keyA keyA, .pop] ++ [.push keyA keyB]) = some s ∧
      run s writerEvents = some s' ∧ s'.writer = some (keyB, keyA) ∧
      getVal s'.db keyA = some keyB := by
  obtain ⟨s, hput⟩ : ∃ s, run (opened fun _ => none)
    ([.push keyA keyA, .pop] ++ [.push keyA keyB]) = some s := ⟨_, rfl⟩
  obtain ⟨s', hrun, hwriter, hclient⟩ : ∃ s', run s writerEvents = some s' ∧
      s'.writer = some (keyB, keyA) ∧ s'.client = some (keyA, []) := by
    obtain rfl := Option.some.inj hput
    exact ⟨_, rfl, rfl, rfl⟩
  refine ⟨s, s', hput, hrun, hwriter, getVal_of_put hput hrun ?_ hclient ?_ (by decide) ?_⟩
  · simp [writerEvents, keyA, keyB]
  · obtain rfl := Option.some.inj hput
    iterate 5
      refine .cons (by simp) fun s' hs' => ?_
      obtain rfl := Option.some.inj hs'
    refine .cons (fun _ _ pair hpair => ?_) fun s' _ before key after s₁ heq => by simp at heq
    obtain rfl := Option.some.inj hpair
    decide
  · intro key' value' hmem hbytes
    obtain ⟨rfl, -⟩ : key' = keyB ∧ value' = keyA := by simpa [writerEvents] using hmem
    exact absurd hbytes (by decide)

/-- The writer has the pair in its hands when the `get` begins, and the `get` does not find the
key. -/
theorem getVal_popped_eq_none : ∃ s s' : State,
    run (opened fun _ => none) [.push (List.replicate 8 false) (List.replicate 8 true)] = some s ∧
      run s [.pop, .flush (List.replicate 8 false)] = some s' ∧
      s'.client = some (List.replicate 8 false, []) ∧
      getVal s'.db (List.replicate 8 false) = none :=
  ⟨_, _, rfl, rfl, rfl, rfl⟩

/-! ## No lost and no repeated writes -/

/-- The pair that an event puts. -/
def Event.pair : Event → Option (Bits × Bits)
  | .push key value => some (key, value)
  | _ => none

/-- The database has the written pairs in the order of their writes, and these are with the pending
ones all pairs that were put. -/
structure Conserves (db : List UInt8 → Option (List UInt8)) (pairs written : List (Bits × Bits))
    (s : State) : Prop where
  db : s.db = overlay db (written.map entry)
  perm : (written ++ s.pending).Perm pairs

section
variable {db : List UInt8 → Option (List UInt8)} {s s' : State}

attribute [local grind =] State.pending Event.pair

theorem Conserves.step {pairs written : List (Bits × Bits)} {e : Event}
    (h : Conserves db pairs written s) (he : step s e = some s') :
    ∃ written', Conserves db (pairs ++ e.pair.toList) written' s' := by
  obtain ⟨hdb, hperm⟩ := h
  have hput : ∀ pair, synchronousPut s.db pair = overlay db ((written ++ [pair]).map entry) := by
    intro pair
    rw [List.map_append, List.map_singleton, overlay_snoc, hdb]
    rfl
  obtain ⟨key, value, rfl, hclient, rfl⟩ | ⟨key, rfl, hclient, rfl⟩ |
    ⟨key, pair, remaining, rfl, hclient, rfl⟩ | ⟨key, rfl, hclient, rfl⟩ |
    ⟨pair, queue, rfl, hwriter, hq, rfl⟩ | ⟨pair, rfl, hwriter, rfl⟩ := step_cases he
  · exact ⟨written, hdb, by grind⟩
  · exact ⟨written, hdb, by grind⟩
  · exact ⟨written ++ [pair], hput pair, by grind⟩
  · exact ⟨written, hdb, by grind⟩
  · exact ⟨written, hdb, by grind⟩
  · exact ⟨written ++ [pair], hput pair, by grind⟩

/-- However the two threads take turns, every pair that was put is written once or pending. -/
theorem run_conserves {events : List Event} (hrun : run (opened db) events = some s) :
    ∃ written, Conserves db (events.filterMap Event.pair) written s := by
  induction events using List.reverseRecOn generalizing s with
  | nil =>
    obtain rfl := Option.some.inj hrun
    exact ⟨[], rfl, .refl _⟩
  | append_singleton events e ih =>
    rw [run_snoc, Option.bind_eq_some_iff] at hrun
    obtain ⟨s₁, hrun, he⟩ := hrun
    obtain ⟨written, hwritten⟩ := ih hrun
    have hpair : [e].filterMap Event.pair = e.pair.toList := by cases e <;> rfl
    rw [List.filterMap_append, hpair]
    exact hwritten.step he

end

/-- The `get` writes the second pair, and the writer still has the first one. -/
theorem run_conserves_popped : ∃ s, s.writer = some ([true], [false]) ∧
    run (opened fun _ => none) [.push [true] [false], .pop, .push [] [true], .flush [],
      .clientPut] = some s ∧
    ∃ written, Conserves (fun _ => none) [([true], [false]), ([], [true])] written s := by
  have hrun : run (opened fun _ => none)
      [.push [true] [false], .pop, .push [] [true], .flush [], .clientPut] = some _ := rfl
  exact ⟨_, rfl, hrun, run_conserves hrun⟩

end Pequin.AsyncStore
