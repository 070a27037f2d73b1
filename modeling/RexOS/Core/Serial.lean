import Mathlib.Data.List.Basic

/-!
# Trees written in a row

A forest of named nodes with properties, and the row of tags that a depth-first walk meets: the
name of a node, its properties, its children, and its end. A scan that goes through the row tag by
tag is a recursion over the forest.
-/

/-- Trees side by side: the first of them, with its properties and children, and the rest. -/
inductive Forest (ν π : Type) where
  | nil
  | node (name : ν) (props : List π) (children rest : Forest ν π)

/-- What a walk meets. -/
inductive Tag (ν π : Type) where
  | opening (name : ν)
  | property (p : π)
  | closing

/-- A node of a forest, with all that is below it. -/
structure Node (ν π : Type) where
  name : ν
  props : List π
  children : Forest ν π

/-- What a scan does at each tag; it may stop with an error. -/
structure Scanner (ν π ε σ : Type) where
  opening : ν → σ → Except ε σ
  property : π → σ → Except ε σ
  closing : σ → σ

variable {ν π ε σ : Type}

namespace Scanner

/-- The step at a tag. -/
def step (R : Scanner ν π ε σ) (s : σ) : Tag ν π → Except ε σ
  | .opening name => R.opening name s
  | .property p => R.property p s
  | .closing => .ok (R.closing s)

/-- The properties of a node, one after the other. -/
def props (R : Scanner ν π ε σ) (ps : List π) (s : σ) : Except ε σ :=
  ps.foldlM (fun s p => R.property p s) s

@[simp] theorem props_nil (R : Scanner ν π ε σ) (s : σ) : R.props [] s = .ok s := rfl

@[simp] theorem props_cons (R : Scanner ν π ε σ) (p : π) (ps : List π) (s : σ) :
    R.props (p :: ps) s = R.property p s >>= R.props ps := rfl

/-- The scan as a recursion. -/
def forest (R : Scanner ν π ε σ) : Forest ν π → σ → Except ε σ
  | .nil, s => .ok s
  | .node name ps children rest, s =>
    R.opening name s >>= R.props ps >>= R.forest children >>= fun s => R.forest rest (R.closing s)

end Scanner

namespace Forest

/-- The tags that a depth-first walk meets. -/
def flatten : Forest ν π → List (Tag ν π)
  | nil => []
  | node name ps children rest =>
    .opening name :: (ps.map .property ++ (children.flatten ++ .closing :: rest.flatten))

/-- The nodes in the order of their beginnings. -/
def nodes : Forest ν π → List (Node ν π)
  | nil => []
  | node name ps children rest => ⟨name, ps, children⟩ :: (children.nodes ++ rest.nodes)

/-- The properties in their order. -/
def properties (f : Forest ν π) : List π := f.nodes.flatMap fun n => n.props

@[simp] theorem nodes_nil : (nil : Forest ν π).nodes = [] := rfl

@[simp] theorem nodes_node (name : ν) (ps : List π) (children rest : Forest ν π) :
    (node name ps children rest).nodes = ⟨name, ps, children⟩ :: (children.nodes ++ rest.nodes) :=
      rfl

/-- The properties of a node, and those below and behind it. -/
theorem properties_node (name : ν) (ps : List π) (children rest : Forest ν π) :
    (node name ps children rest).properties = ps ++ (children.properties ++ rest.properties) := by
  rw [properties, nodes_node, List.flatMap_cons, List.flatMap_append, properties, properties]

end Forest

/-- A scan of the properties in a row. -/
theorem Scanner.foldlM_props (R : Scanner ν π ε σ) (ps : List π) (s : σ) :
    (ps.map (Tag.property (ν := ν))).foldlM R.step s = R.props ps s := by
  rw [Scanner.props, List.foldlM_map]
  rfl

/-- A scan of the row is a recursion over the forest. -/
theorem Scanner.foldlM_flatten (R : Scanner ν π ε σ) (f : Forest ν π) (s : σ) :
    f.flatten.foldlM R.step s = R.forest f s := by
  induction f generalizing s with
  | nil => rfl
  | node name ps children rest ihc ihr =>
    rw [Forest.flatten, List.foldlM_cons, Scanner.forest, bind_assoc, bind_assoc]
    apply bind_congr
    intro s
    rw [List.foldlM_append, Scanner.foldlM_props]
    apply bind_congr
    intro s
    rw [List.foldlM_append, ihc]
    apply bind_congr
    intro s
    rw [List.foldlM_cons, ← ihr]
    rfl
