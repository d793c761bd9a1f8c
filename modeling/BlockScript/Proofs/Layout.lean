import BlockScript.Proofs.TableViews
import BlockScript.Proofs.WrittenScopes

/-!
# Layout

What a script says when the names of all results are known.  Emission gives names while it
writes and hands views from scope to scope; here the names stand in a table `t` from the start, a
block reads by name what lies in a scope around it, up to the nearest function, and no state is
carried along.

* `Layout.inflow`: what is piped into a statement.
* `Layout.zone`, `Layout.scope`, `Layout.script`: the entries of a zone, a scope, a script, with
  the findings on the way.
-/

namespace BlockScript

open Emit

/-- A connection leads from `p` to `n`. -/
def Index.Feeds (g : Index) (p n : BlockId) : Prop :=
  ∃ c ∈ g.connections, c.source = p ∧ c.target = n

/-- Everything that leads to `n` comes from `p`. -/
structure Index.OnlyProducer (g : Index) (p n : BlockId) : Prop where
  feeds : g.Feeds p n
  only : ∀ q, g.Feeds q n → q = p

theorem Scope.mem_producers {s : Scope} {p n : BlockId} :
    p ∈ s.producers n ↔ s.index.Feeds p n := by
  have hin : p ∈ s.predecessors n ↔ s.index.Feeds p n ∧ p ∈ s.ids := by
    simp only [predecessors, List.mem_eraseDups, List.mem_map, mem_incoming]
    constructor
    · rintro ⟨c, ⟨hc, htarget, hmem⟩, rfl⟩
      exact ⟨⟨c, hc, rfl, htarget⟩, hmem⟩
    · rintro ⟨⟨c, hc, rfl, htarget⟩, hmem⟩
      exact ⟨c, ⟨hc, htarget, hmem⟩, rfl⟩
  have hout : p ∈ s.externalProducers n ↔ s.index.Feeds p n ∧ p ∉ s.ids := by
    simp only [externalProducers, List.mem_eraseDups, List.mem_filter, List.mem_map, Index.incoming,
      contains, List.contains_eq_mem, Bool.not_eq_true', decide_eq_false_iff_not, beq_iff_eq]
    constructor
    · rintro ⟨⟨c, ⟨hc, htarget⟩, rfl⟩, hmem⟩
      exact ⟨⟨c, hc, rfl, htarget⟩, hmem⟩
    · rintro ⟨⟨c, hc, rfl, htarget⟩, hmem⟩
      exact ⟨⟨c, ⟨hc, htarget⟩, rfl⟩, hmem⟩
  rw [producers, List.mem_append, hin, hout]
  by_cases h : p ∈ s.ids <;> simp [h]

theorem Scope.nodup_producers (s : Scope) (n : BlockId) : (s.producers n).Nodup := by
  refine List.nodup_append.mpr ⟨nodup_eraseDups _, nodup_eraseDups _, ?_⟩
  rintro p hin q hout rfl
  simp only [predecessors, List.mem_eraseDups, List.mem_map, mem_incoming] at hin
  obtain ⟨c, ⟨-, -, hmem⟩, rfl⟩ := hin
  simp [externalProducers, contains, hmem] at hout

theorem Scope.producers_eq_singleton_iff {s : Scope} {p n : BlockId} :
    s.producers n = [p] ↔ s.index.OnlyProducer p n := by
  constructor
  · intro h
    refine ⟨mem_producers.mp (by rw [h]; simp), fun q hq => ?_⟩
    have hmem := mem_producers.mpr hq
    rw [h] at hmem
    exact List.mem_singleton.mp hmem
  · intro h
    refine List.perm_singleton.mp
      ((List.perm_ext_iff_of_nodup (s.nodup_producers n) (List.nodup_singleton p)).mpr fun q => ?_)
    rw [mem_producers, List.mem_singleton]
    exact ⟨h.only q, fun hq => hq ▸ h.feeds⟩

/-- The name under which the blocks of a scope read the result of `producer`. -/
def Index.readName? (g : Index) (t : Table) (P : Option Place) (producer : BlockId) :
    Option String :=
  if g.parent? producer ∈ g.scopesFrom P then t.nameOf producer else none

/-- A part of a script: its entries, and what there is to say about them. -/
structure Layout where
  entries : List Entry := []
  findings : List Finding := []
  deriving DecidableEq, Repr

namespace Layout

/-- Parts one after the other. -/
def join (parts : List Layout) : Layout := ⟨parts.flatMap entries, parts.flatMap findings⟩

/-- A part with a blank line after it, if one is asked for. -/
def spaced (separate : Bool) (part : Layout) : Layout :=
  { part with entries := if separate then part.entries ++ [.blank] else part.entries }

section

variable (g : Index) (t : Table)

/-- What is piped into the statement of a block, and what there is to say about it. -/
def inflow (P : Option Place) (input : Option Source) (id : BlockId) :
    Option Source × Option Finding :=
  match (g.scopeAt P).producers id with
  | [] => (input, none)
  | [producer] => match g.readName? t P producer with
    | some name => (some (.variable producer name), none)
    | none =>
      if (g.scopeAt P).contains producer then (none, none)
      else (input, some (.unseenProducer id producer))
  | producers => (none, some (.severalProducers id producers))

/-- A branch of a container: an opening, the zone one level further in, and a closing. -/
def branch (zone : Place → Option Source → Int → Layout) (level : Int) (owner : BlockId)
    (b : Branch) : Layout :=
  let inner := zone ⟨owner, b.zone⟩ b.input (level + 1)
  { inner with
    entries := .opening level owner b.target b.source b.what :: inner.entries ++
      [.closing level owner] }

/-- A statement into which `source` is piped. -/
def body (zone : Place → Option Source → Int → Layout) (level : Int) (source : Option Source) :
    Statement → Layout
  | .container id => match g.block? id with
    | some block => join ((branches g block (t.nameOf id) source).map (branch zone level id))
    | none => {}
  | .chain c =>
    { entries := [.pipeline level (t.nameOf c.terminal) source (c.members.filterMap g.block?)] }

/-- A statement of the scope `P`. -/
def statement (zone : Place → Option Source → Int → Layout) (P : Option Place)
    (input : Option Source) (level : Int) (st : Statement) : Layout :=
  let piped := inflow g t P input st.lead
  let part := body g t zone level piped.1 st
  { part with findings := piped.2.toList ++ part.findings }

/-- The scope `P`, whose blocks are in order. -/
def scope (zone : Place → Option Source → Int → Layout) (P : Option Place)
    (order : List BlockId) (input : Option Source) (level : Int) (separate : Bool) : Layout :=
  join (((g.scopeAt P).statements order).map fun st =>
    spaced separate (statement g t zone P input level st))

/-- A zone, with `depth` levels left. -/
def zone : Nat → Place → Option Source → Int → Layout
  | 0, _, _, _ => {}
  | depth + 1, place, input, level =>
    if (g.zoneScope place).ids.isEmpty then { entries := [.emptyZone level place] }
    else match (g.zoneScope place).sorted with
      | .error cycle => ⟨[.brokenZone level place], [.zoneCycle place cycle]⟩
      | .ok order => scope g t (zone depth) (some place) order input level false

/-- The body of a function, with the declaration of its parameter if it has one. -/
def functionBody (id : BlockId) (inputParam : String) : Layout :=
  if Text.isBlankText inputParam then zone g t g.blocks.length ⟨id, .body⟩ none 1
  else
    let parameter := Naming.identifier (Text.trim inputParam)
    let inner := zone g t g.blocks.length ⟨id, .body⟩ (some (.parameter parameter)) 2
    { inner with
      entries := .parameters 1 parameter :: .opening 1 id none none .process :: inner.entries ++
        [.closing 1 id] }

/-- The definition of a function. -/
def definition (id : BlockId) : Layout :=
  match (g.block? id).bind Block.container with
  | some (.function name inputParam _) =>
    let inner := functionBody g t id inputParam
    { inner with
      entries := .opening 0 id none none (.function (Container.resolveFunctionName name)) ::
        inner.entries ++ [.closing 0 id] }
  | _ => {}

/-- The functions, defined in order. -/
def definitions (functions : List BlockId) : Layout :=
  join (functions.map fun id => spaced true (definition g t id))

/-- The top level. -/
def execution (main : List BlockId) : Layout :=
  if main.isEmpty then {} else scope g t (zone g t g.blocks.length) none main none 0 true

/-- The script: the definitions of the functions, then what is run. -/
def script (functions main : List BlockId) : Layout :=
  ⟨Plan.part Plan.functionsBanner functions (definitions g t functions).entries ++
      Plan.part Plan.executionBanner main (execution g t main).entries,
    (definitions g t functions).findings ++ (execution g t main).findings⟩

end

/-! ### Entries and findings of the parts -/

@[simp] theorem entries_join (parts : List Layout) :
    (join parts).entries = parts.flatMap entries := rfl

@[simp] theorem findings_join (parts : List Layout) :
    (join parts).findings = parts.flatMap findings := rfl

@[simp] theorem findings_spaced (separate : Bool) (part : Layout) :
    (spaced separate part).findings = part.findings := rfl

theorem entries_spaced (separate : Bool) (part : Layout) :
    (spaced separate part).entries = part.entries ++ if separate then [.blank] else [] := by
  cases separate <;> simp [spaced]

end Layout

end BlockScript
