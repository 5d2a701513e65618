import Pequin.Lib.Generator

/-!
# Renaming the wires from outside

A generator's rows and commands are used with other names for the wires that are given from outside.
Two of them may get one name. Then a command that writes both writes one place twice, and what the
rows see is the last value. Commands that write only numbered wires do not depend on the names
(`pull_run`).
-/

namespace Generator

variable {κ κ' γ α β : Type}

def Wire.map (σ : κ → κ') : Wire κ → Wire κ'
  | .fresh n => .fresh n
  | .ext k => .ext (σ k)

def Wire.IsFresh : Wire κ → Prop
  | .fresh _ => True
  | .ext _ => False

def renameTerms (σ : κ → κ') (ts : Terms κ) : Terms κ' := ts.map fun t =>
    (t.1, t.2.map (Wire.map σ))

def Row.rename (σ : κ → κ') (r : Row κ) : Row κ' :=
  ⟨renameTerms σ r.a, renameTerms σ r.b, renameTerms σ r.c⟩

section
variable {R : Type} [CommRing R] (σ : κ → κ') (z : Wire κ' → R)

theorem lin_rename (ts : Terms κ) : lin z (renameTerms σ ts) = lin (z ∘ Wire.map σ) ts := by
  induction ts with
  | nil => rfl
  | cons t ts ih =>
    obtain ⟨c, w⟩ := t
    rw [renameTerms, List.map_cons, lin_cons, lin_cons, ← renameTerms, ih]
    cases w <;> rfl

theorem Row.eval_rename (r : Row κ) : (r.rename σ).eval z = r.eval (z ∘ Wire.map σ) := by
  simp only [Row.eval, Row.rename, lin_rename]

theorem rowsHold_rename {rows : List (Row κ)} :
    RowsHold z (rows.map (Row.rename σ)) ↔ RowsHold (z ∘ Wire.map σ) rows := by
  simp only [RowsHold, List.forall_mem_map, Row.eval_rename]

end

/-! ## Writing one place many times -/

section
variable {ν : Type} [DecidableEq ν]

theorem writeAll_append {ws ws' : List ν} {vs vs' : List ℤ} (hlen : ws.length = vs.length)
    (s : ν → ℤ) : writeAll (ws ++ ws') (vs ++ vs') s = writeAll ws' vs' (writeAll ws vs s) := by
  rw [writeAll, List.zip_append hlen, List.foldl_append]
  rfl

theorem writeAll_replicate (y : ν) (vs : List ℤ) (s : ν → ℤ) :
    writeAll (List.replicate vs.length y) vs s y = vs.getLastD (s y) := by
  induction vs generalizing s with
  | nil => rfl
  | cons v vs ih =>
    rw [List.length_cons, List.replicate_succ, writeAll_cons, ih, Function.update_self]
    cases vs <;> rfl

/-- What is left of a list when all places from the `k`-th on are one place. -/
def shadow (k : ℕ) (vs : List ℤ) : List ℤ :=
  vs.take k ++ List.replicate (vs.length - k) (vs.getLastD 0)

theorem getLastD_drop {k : ℕ} {vs : List ℤ} (hk : k < vs.length) (d d' : ℤ) :
    (vs.drop k).getLastD d = vs.getLastD d' := by
  have hne : vs ≠ [] := List.ne_nil_of_length_pos (Nat.zero_lt_of_lt hk)
  rw [List.getLastD_eq_getLast?, List.getLastD_eq_getLast?, List.getLast?_drop,
    if_neg (Nat.not_le.2 hk), List.getLast?_eq_getLast_of_ne_nil hne]
  rfl

/-- Nothing is lost exactly when the values from the `k`-th on are equal. -/
theorem shadow_eq_self_iff {k : ℕ} {vs : List ℤ} :
    shadow k vs = vs ↔ ∃ v, ∀ x ∈ vs.drop k, x = v := by
  have hdrop : shadow k vs = vs ↔ vs.drop k = List.replicate (vs.length - k) (vs.getLastD 0) := by
    conv_lhs => rw [shadow, eq_comm]
    conv_lhs => lhs; rw [← List.take_append_drop k vs]
    exact List.append_right_inj _
  rw [hdrop, List.eq_replicate_iff, List.length_drop]
  refine ⟨fun h => ⟨_, h.2⟩, fun ⟨v, hv⟩ => ⟨rfl, fun x hx => ?_⟩⟩
  -- the last value is one of those from the `k`-th on
  have hk : k < vs.length := by
    have := List.length_pos_of_mem hx
    rw [List.length_drop] at this
    omega
  have hne : vs.drop k ≠ [] := List.ne_nil_of_mem hx
  rw [hv x hx, ← getLastD_drop hk 0 0, List.getLastD_eq_getLast?,
    List.getLast?_eq_getLast_of_ne_nil hne]
  exact (hv _ (List.getLast_mem hne)).symm

theorem map_writeAll_pad {ws : List ν} (hws : ws.Nodup) {y : ν} (hy : y ∉ ws) {vs : List ℤ}
    (hlen : ws.length ≤ vs.length) (s : ν → ℤ) :
    (ws ++ List.replicate (vs.length - ws.length) y).map
      (writeAll (ws ++ List.replicate (vs.length - ws.length) y) vs s) = shadow ws.length vs := by
  have htake : ws.length = (vs.take ws.length).length :=
    by rw [List.length_take, Nat.min_eq_left hlen]
  have hdrop : (vs.drop ws.length).length = vs.length - ws.length := List.length_drop
  have hwrite : writeAll (ws ++ List.replicate (vs.length - ws.length) y) vs s =
      writeAll (List.replicate (vs.drop ws.length).length y) (vs.drop ws.length)
        (writeAll ws (vs.take ws.length) s) := by
    rw [hdrop, ← writeAll_append htake, List.take_append_drop]
  have hold : ∀ w ∈ ws, writeAll (ws ++ List.replicate (vs.length - ws.length) y) vs s w =
      writeAll ws (vs.take ws.length) s w := by
    intro w hw
    rw [hwrite]
    refine writeAll_of_notMem (fun hmem => hy ?_) _ _
    rwa [← List.eq_of_mem_replicate hmem]
  rw [List.map_append, List.map_congr_left hold, map_writeAll hws htake, List.map_replicate, hwrite,
    writeAll_replicate, shadow]
  rcases Nat.lt_or_ge ws.length vs.length with h | h
  · rw [getLastD_drop h _ 0]
  · rw [Nat.sub_eq_zero_of_le h]
    rfl

end

/-! ## Commands that write numbered wires -/

section
variable [DecidableEq κ] [DecidableEq κ'] (σ : κ → κ')

theorem update_comp_map {w : Wire κ} (hw : w.IsFresh) (s : Wire κ' → ℤ) (v : ℤ) :
    Function.update s (w.map σ) v ∘ Wire.map σ = Function.update (s ∘ Wire.map σ) w v := by
  cases w with
  | ext k => exact hw.elim
  | fresh n =>
    funext w'
    cases w' with
    | fresh m =>
      simp only [Function.comp_apply, Function.update_apply, Wire.map, Wire.fresh.injEq]
    | ext k => simp [Wire.map]

theorem writeAll_comp_map {ws : List (Wire κ)} (hws : ∀ w ∈ ws, w.IsFresh) (vs : List ℤ)
    (s : Wire κ' → ℤ) : writeAll (ws.map (Wire.map σ)) vs s ∘ Wire.map σ =
      writeAll ws vs (s ∘ Wire.map σ) := by
  induction ws generalizing vs s with
  | nil => rfl
  | cons w ws ih =>
    obtain ⟨hw, hws⟩ := List.forall_mem_cons.1 hws
    cases vs with
    | nil => rfl
    | cons v vs => rw [List.map_cons, writeAll_cons, writeAll_cons, ih hws, update_comp_map σ hw]

variable (targets : γ → List (Wire κ)) (values : γ → (Wire κ → ℤ) → List ℤ)

/-- Commands that write values to their targets, under new names. -/
def renamed : Machine κ' γ where
  step c s := writeAll ((targets c).map (Wire.map σ)) (values c (s ∘ Wire.map σ)) s

def writing : Machine κ γ where
  step c s := writeAll (targets c) (values c s) s

/-- Where the targets are numbered, running under new names is running under the old ones. -/
theorem pull_run {cmds : List γ} (hcmds : ∀ c ∈ cmds, ∀ w ∈ targets c, w.IsFresh)
    (s : Wire κ' → ℤ) : (renamed σ targets values).run cmds s ∘ Wire.map σ =
      (writing targets values).run cmds (s ∘ Wire.map σ) := by
  induction cmds generalizing s with
  | nil => rfl
  | cons c cmds ih =>
    obtain ⟨hc, hcmds⟩ := List.forall_mem_cons.1 hcmds
    rw [Machine.run_cons, Machine.run_cons, ih hcmds]
    exact congrArg _ (writeAll_comp_map σ hc _ s)

theorem run_ext {cmds : List γ} (hcmds : ∀ c ∈ cmds, ∀ w ∈ targets c, w.IsFresh) (s : Wire κ → ℤ)
    (k : κ) : (writing targets values).run cmds s (.ext k) = s (.ext k) := by
  induction cmds generalizing s with
  | nil => rfl
  | cons c cmds ih =>
    obtain ⟨hc, hcmds⟩ := List.forall_mem_cons.1 hcmds
    rw [Machine.run_cons, ih hcmds]
    exact writeAll_of_notMem (hc (.ext k)) _ s

end

/-! ## What the commands of a generator are -/

def Wire.IsNew (n : ℕ) : Wire κ → Prop
  | .fresh k => n ≤ k
  | .ext _ => False

theorem Wire.IsNew.isFresh {n : ℕ} {w : Wire κ} (h : w.IsNew n) : w.IsFresh := by
  cases w with
  | fresh k => trivial
  | ext k => exact h

theorem Wire.IsNew.not_below {n : ℕ} {w : Wire κ} (h : w.IsNew n) : ¬ w.Below n := by
  cases w with
  | fresh k => exact Nat.not_lt.2 h
  | ext k => exact h.elim

theorem Wire.IsNew.mono {n m : ℕ} {w : Wire κ} (h : w.IsNew m) (hm : n ≤ m) : w.IsNew n := by
  cases w with
  | fresh k => exact hm.trans h
  | ext k => exact h

/-- From number `n` on, no number is used twice, all commands satisfy `P`, and the value satisfies
`Q`. -/
structure Emits (P : γ → Prop) (g : Gen κ γ α) (n : ℕ) (Q : α → Prop) : Prop where
  le : n ≤ (g n).next
  cmds : ∀ c ∈ (g n).cmds, P c
  val : Q (g n).val

section
variable {P : γ → Prop} {g : Gen κ γ α} {f : α → Gen κ γ β} {n : ℕ}

theorem Emits.pure {a : α} {Q : α → Prop} (h : Q a) : Emits P (Pure.pure a : Gen κ γ α) n Q :=
  ⟨le_rfl, fun _ hc => absurd hc List.not_mem_nil, h⟩

theorem Emits.bind {Q : α → Prop} {Q' : β → Prop} (hg : Emits P g n Q)
    (hf : ∀ a m, n ≤ m → Q a → Emits P (f a) m Q') : Emits P (g >>= f) n Q' := by
  have h := hf _ _ hg.le hg.val
  refine ⟨hg.le.trans h.le, fun c hc => ?_, h.val⟩
  exact (List.mem_append.1 hc).elim (hg.cmds c) (h.cmds c)

theorem Emits.mono {Q Q' : α → Prop} (hg : Emits P g n Q) (h : ∀ a, Q a → Q' a) : Emits P g n Q' :=
  ⟨hg.le, hg.cmds, h _ hg.val⟩

theorem Emits.fresh : Emits P (Gen.fresh : Gen κ γ (Wire κ)) n (Wire.IsNew n) :=
  ⟨n.le_succ, fun _ hc => absurd hc List.not_mem_nil, le_refl n⟩

theorem Emits.row (r : Row κ) : Emits P (Gen.row r : Gen κ γ Unit) n fun _ => True :=
  ⟨le_rfl, fun _ hc => absurd hc List.not_mem_nil, trivial⟩

theorem Emits.cmd {c : γ} (hc : P c) : Emits P (Gen.cmd c : Gen κ γ Unit) n fun _ => True :=
  ⟨le_rfl, fun c' hc' => by rwa [List.mem_singleton.1 hc'], trivial⟩

theorem Emits.each {f : α → Gen κ γ β} {Q : β → Prop} (l : List α)
    (hf : ∀ a ∈ l, ∀ m, n ≤ m → Emits P (f a) m Q) :
    Emits P (Gen.each f l) n fun bs => ∀ b ∈ bs, Q b := by
  induction l generalizing n with
  | nil => exact .pure fun _ hb => absurd hb List.not_mem_nil
  | cons a l ih =>
    obtain ⟨ha, hl⟩ := List.forall_mem_cons.1 hf
    refine .bind (ha n le_rfl) fun b m hm hb => ?_
    refine .bind (ih fun a ha m' hm' => hl a ha m' (hm.trans hm')) fun bs m' _ hbs => ?_
    exact .pure (List.forall_mem_cons.2 ⟨hb, hbs⟩)

end

/-! ## What the rows need after a run -/

section
variable (M : Machine κ γ) (R : Type) [CommRing R]

/-- The rows hold after the commands are run from `s` only if `C` does. -/
def Needs (g : Gen κ γ α) (n : ℕ) (s : Wire κ → ℤ) (C : Prop) : Prop :=
  RowsHold (fun w => (M.run (g n).cmds s w : R)) (g n).rows → C

variable {M R}

theorem Needs.bind {g : Gen κ γ α} {f : α → Gen κ γ β} {n : ℕ} {s : Wire κ → ℤ}
    {P : α → ℕ → (Wire κ → ℤ) → Prop} {C : Prop} (hg : Runs M g n s P)
    (hf : ∀ a m s', n ≤ m → Agree n s s' → P a m s' → Needs M R (f a) m s' C) :
    Needs M R (g >>= f) n s C := by
  intro hrows
  rw [Gen.bind_apply, Machine.run_append, rowsHold_append] at hrows
  exact hf _ _ _ hg.le hg.agree hg.post hrows.2

theorem Needs.bind_pure {g : Gen κ γ α} {b : β} {n : ℕ} {s : Wire κ → ℤ} {C : Prop}
    (hg : Needs M R g n s C) : Needs M R (g >>= fun _ => pure b) n s C := by
  intro hrows
  rw [Gen.bind_apply, Gen.pure_apply, List.append_nil, List.append_nil] at hrows
  exact hg hrows

end

end Generator
