import Mathlib.Data.Nat.Notation
import Mathlib.Tactic.TypeStar

/-!
# Bracketed text

Text with brackets is a list of symbols, and balanced text is the text of a list of nodes. A reader
keeps a frame for each bracket that is open: a symbol changes the current frame, an opening bracket
starts a new one, and a closing bracket hands the current frame to the one below. On balanced text a
reader computes a function of the nodes.
-/

namespace Bracket

/-- A symbol of a text with brackets. -/
inductive Symbol (α : Type*) where
  | opening
  | closing
  | flat (a : α)
  deriving DecidableEq

inductive Node (α : Type*) where
  | flat (a : α)
  | group (ts : List (Node α))

variable {α β F : Type*}

mutual
def Node.symbols : Node α → List (Symbol α)
  | .flat a => [.flat a]
  | .group ts => .opening :: (listSymbols ts ++ [.closing])

def listSymbols : List (Node α) → List (Symbol α)
  | [] => []
  | t :: ts => t.symbols ++ listSymbols ts
end

@[simp] theorem listSymbols_nil : listSymbols ([] : List (Node α)) = [] := rfl

@[simp] theorem listSymbols_flat (a : α) (ts : List (Node α)) :
    listSymbols (.flat a :: ts) = .flat a :: listSymbols ts := rfl

@[simp] theorem listSymbols_group (us ts : List (Node α)) :
    listSymbols (.group us :: ts) = .opening :: (listSymbols us ++ .closing :: listSymbols ts) := by
  simp [listSymbols, Node.symbols]

@[simp] theorem listSymbols_append (ts us : List (Node α)) :
    listSymbols (ts ++ us) = listSymbols ts ++ listSymbols us := by
  induction ts with
  | nil => rfl
  | cons t ts ih => rw [List.cons_append, listSymbols, ih, listSymbols, List.append_assoc]

/-! ## Readers -/

structure Reader (α F : Type*) where
  init : F
  flat : F → α → F
  /-- The frame below a closing bracket, and the frame that was closed. -/
  group : F → F → F

namespace Reader

/-- One symbol, with the frames of the brackets that are open. -/
def step (r : Reader α F) : List F × F → Symbol α → Option (List F × F)
  | (below, f), .opening => some (f :: below, r.init)
  | ([], _), .closing => none
  | (g :: below, f), .closing => some (below, r.group g f)
  | (below, f), .flat a => some (below, r.flat f a)

def run (r : Reader α F) : List F × F → List (Symbol α) → Option (List F × F)
  | s, [] => some s
  | s, c :: cs => (r.step s c).bind fun s => r.run s cs

theorem run_append (r : Reader α F) (s : List F × F) (cs ds : List (Symbol α)) :
    r.run s (cs ++ ds) = (r.run s cs).bind fun s => r.run s ds := by
  induction cs generalizing s with
  | nil => rfl
  | cons c cs ih =>
    rw [List.cons_append, run, run]
    cases r.step s c with
    | none => rfl
    | some s => exact ih s

mutual
/-- What a reader computes on a node. -/
def evalNode (r : Reader α F) (f : F) : Node α → F
  | .flat a => r.flat f a
  | .group ts => r.group f (r.eval r.init ts)

def eval (r : Reader α F) (f : F) : List (Node α) → F
  | [] => f
  | t :: ts => r.eval (r.evalNode f t) ts
end

variable (r : Reader α F)

@[simp] theorem eval_nil (f : F) : r.eval f [] = f := rfl

@[simp] theorem eval_flat (f : F) (a : α) (ts : List (Node α)) :
    r.eval f (.flat a :: ts) = r.eval (r.flat f a) ts := rfl

@[simp] theorem eval_group (f : F) (us ts : List (Node α)) :
    r.eval f (.group us :: ts) = r.eval (r.group f (r.eval r.init us)) ts := rfl

@[simp] theorem eval_append (f : F) (ts us : List (Node α)) :
    r.eval f (ts ++ us) = r.eval (r.eval f ts) us := by
  induction ts generalizing f with
  | nil => rfl
  | cons t ts ih => rw [List.cons_append, eval, ih, eval]

mutual
theorem run_symbols (below : List F) (f : F) : (t : Node α) →
    r.run (below, f) t.symbols = some (below, r.evalNode f t)
  | .flat a => rfl
  | .group ts => by
    rw [Node.symbols, run, step, Option.bind_some, run_append, run_listSymbols
      (f :: below) r.init ts]
    rfl

/-- A reader passes over balanced text and is in the frame that `eval` gives. -/
theorem run_listSymbols (below : List F) (f : F) : (ts : List (Node α)) →
    r.run (below, f) (listSymbols ts) = some (below, r.eval f ts)
  | [] => rfl
  | t :: ts => by
    rw [listSymbols, run_append, run_symbols below f t, Option.bind_some,
      run_listSymbols below _ ts, eval]
end

/-- A reader of another alphabet. -/
def comap (r : Reader β F) (g : α → β) : Reader α F := ⟨r.init, fun f a => r.flat f (g a), r.group⟩

end Reader

/-! ## Renaming -/

mutual
def Node.map (g : α → β) : Node α → Node β
  | .flat a => .flat (g a)
  | .group ts => .group (mapNodes g ts)

def mapNodes (g : α → β) : List (Node α) → List (Node β)
  | [] => []
  | t :: ts => t.map g :: mapNodes g ts
end

mutual
theorem Reader.evalNode_map (r : Reader β F) (g : α → β) (f : F) : (t : Node α) →
    r.evalNode f (t.map g) = (r.comap g).evalNode f t
  | .flat a => rfl
  | .group ts => by
    rw [Node.map, evalNode, evalNode, eval_mapNodes r g r.init ts]
    rfl

theorem Reader.eval_mapNodes (r : Reader β F) (g : α → β) (f : F) : (ts : List (Node α)) →
    r.eval f (mapNodes g ts) = (r.comap g).eval f ts
  | [] => rfl
  | t :: ts => by rw [mapNodes, eval, eval, evalNode_map r g f t, eval_mapNodes r g _ ts]
end

/-! ## Copying up to the closing bracket -/

def Symbol.map (g : α → β) : Symbol α → Symbol β
  | .opening => .opening
  | .closing => .closing
  | .flat a => .flat (g a)

/-- The symbols before the bracket that closes `depth` brackets and one more, each of them
renamed. -/
def copy (g : α → Option β) : ℕ → List (Symbol α) → Option (List (Symbol β) × List (Symbol α))
  | _, [] => none
  | depth, .opening :: cs => (copy g (depth + 1) cs).map fun r => (.opening :: r.1, r.2)
  | 0, .closing :: cs => some ([], cs)
  | depth + 1, .closing :: cs => (copy g depth cs).map fun r => (.closing :: r.1, r.2)
  | depth, .flat a :: cs => (g a).bind fun b => (copy g depth cs).map fun r => (.flat b :: r.1, r.2)

section
variable {γ : Type*} {g : γ → Option β} {l : α → γ} {h : α → β}

mutual
theorem copy_symbols (hg : ∀ a, g (l a) = some (h a)) (depth : ℕ) (rest : List (Symbol γ)) :
    (t : Node α) → copy g depth (t.symbols.map (Symbol.map l) ++ rest) =
      (copy g depth rest).map fun r => ((t.map h).symbols ++ r.1, r.2)
  | .flat a => by
    rw [Node.symbols, List.map_singleton, Symbol.map, List.singleton_append, copy, hg,
      Option.bind_some]
    rfl
  | .group ts => by
    rw [Node.symbols, List.map_cons, Symbol.map, List.cons_append, copy, List.map_append,
      List.append_assoc, copy_listSymbols hg (depth + 1) _ ts, List.map_singleton, Symbol.map,
      List.singleton_append, copy]
    cases copy g depth rest with
    | none => rfl
    | some r => simp [Node.map, Node.symbols]

/-- Balanced text is copied as a whole. -/
theorem copy_listSymbols (hg : ∀ a, g (l a) = some (h a)) (depth : ℕ) (rest : List (Symbol γ)) :
    (ts : List (Node α)) → copy g depth ((listSymbols ts).map (Symbol.map l) ++ rest) =
      (copy g depth rest).map fun r => (listSymbols (mapNodes h ts) ++ r.1, r.2)
  | [] => by simp [mapNodes]
  | t :: ts => by
    rw [listSymbols, List.map_append, List.append_assoc, copy_symbols hg depth _ t,
      copy_listSymbols hg depth rest ts, Option.map_map]
    simp [Function.comp_def, mapNodes, listSymbols]
end

theorem copy_group (hg : ∀ a, g (l a) = some (h a)) (ts : List (Node α)) (rest : List (Symbol γ)) :
    copy g 0 ((listSymbols ts).map (Symbol.map l) ++ .closing :: rest) =
      some (listSymbols (mapNodes h ts), rest) := by
  rw [copy_listSymbols hg, copy]
  simp

end

end Bracket
