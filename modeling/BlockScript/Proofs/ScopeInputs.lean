import BlockScript.Proofs.Layout

/-!
# The input of a scope

A block without a producer, and one whose producer cannot be seen, takes the input of its scope.
`Index.HasInput` says what that is, from the outside in: the top level has none, the body of a
function has the function's parameter, and any other zone has what its container hands on to it,
which depends on what is piped into the container.  A scope has one input only
(`Index.HasInput.unique`).
-/

namespace BlockScript

open Emit

/-- What the parameter of a function gives to its body. -/
def Source.ofParameter (inputParam : String) : Option Source :=
  if Text.isBlankText inputParam then none
  else some (.parameter (Naming.identifier (Text.trim inputParam)))

/-- The scope has this input when the results have the names of the table. -/
inductive Index.HasInput (g : Index) (t : Table) : Option Place → Option Source → Prop
  | top : HasInput g t none none
  | body (id : BlockId) (block : Block) (block_eq : g.block? id = some block)
      (name inputParam : String) (children : List BlockId)
      (container_eq : block.container = some (.function name inputParam children)) :
      HasInput g t (some ⟨id, .body⟩) (Source.ofParameter inputParam)
  | zone (place : Place) (block : Block) (block_eq : g.block? place.container = some block)
      (input : Option Source) (outer : HasInput g t (g.parent? place.container) input)
      (b : Branch)
      (mem : b ∈ branches g block (t.nameOf place.container)
        (Layout.inflow g t (g.parent? place.container) input place.container).1)
      (zone_eq : b.zone = place.zone) :
      HasInput g t (some place) b.input

theorem Emit.branches_function {g : Index} {block : Block} {name inputParam : String}
    {children : List BlockId} (h : block.container = some (.function name inputParam children))
    (target : Option String) (source : Option Source) : branches g block target source = [] := by
  simp [branches, h]

theorem Emit.eq_of_mem_branches {g : Index} {block : Block} {target : Option String}
    {source : Option Source} {a b : Branch} (ha : a ∈ branches g block target source)
    (hb : b ∈ branches g block target source) (h : a.zone = b.zone) : a = b := by
  have hnodup : ((branches g block target source).map Branch.zone).Nodup := by
    rw [Index.map_zone_branches]
    exact Index.nodup_branchZones block
  exact List.inj_on_of_nodup_map hnodup ha hb h

/-- **A scope has one input only**: going inward, each container hands on one thing to each of its
zones. -/
theorem Index.HasInput.unique {g : Index} {t : Table} {P : Option Place}
    {input input' : Option Source} (h : g.HasInput t P input) (h' : g.HasInput t P input') :
    input = input' := by
  induction h generalizing input' with
  | top =>
    cases h'
    rfl
  | body id block block_eq name inputParam children container_eq =>
    generalize hplace : (⟨id, .body⟩ : Place) = place at h'
    cases h' with
    | body id' block' block_eq' name' inputParam' children' container_eq' =>
      cases hplace
      rw [block_eq, Option.some.injEq] at block_eq'
      rw [← block_eq', container_eq, Option.some.injEq, Container.function.injEq] at container_eq'
      rw [container_eq'.2.1]
    | zone _ block' block_eq' _ _ b mem =>
      subst hplace
      rw [block_eq, Option.some.injEq] at block_eq'
      rw [← block_eq', branches_function container_eq] at mem
      cases mem
  | zone place block block_eq input outer b mem zone_eq ih =>
    cases h' with
    | body id block' block_eq' name inputParam children container_eq =>
      rw [block_eq, Option.some.injEq] at block_eq'
      rw [block_eq', branches_function container_eq] at mem
      cases mem
    | zone _ block' block_eq' input' outer' b' mem' zone_eq' =>
      rw [block_eq, Option.some.injEq] at block_eq'
      rw [← ih outer', ← block_eq'] at mem'
      rw [eq_of_mem_branches mem mem' (zone_eq.trans zone_eq'.symm)]

end BlockScript
