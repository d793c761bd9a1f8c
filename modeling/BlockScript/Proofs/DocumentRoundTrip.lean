import BlockScript.Schema.Graph

/-!
# Reading a graph document is a projection

A document may leave members out, add others, spell two keys in two ways and write truth values as
words or numbers.  The snapshot that is read from it has none of this freedom left: written out
again, with every member and in either spelling, it is read as itself.

For each record, one lemma says that reading it is reading its members (`Parameter.ofMembers_eq_ok`
and its like).  One way, it gives what reading makes sure of (`Snapshot.ensures_ofJson`); the other
way, that every part which meets these conditions is read back (`Snapshot.ofJson_toJson`).
-/

namespace BlockScript

namespace Schema

namespace Checked

variable {α β : Type}

/-! ### What a successful reading says about its parts -/

theorem map_eq_ok {f : α → β} {x : Checked α} {b : β} :
    f <$> x = .ok b ↔ ∃ a, x = .ok a ∧ f a = b := by
  cases x with
  | ok a => simp
  | faulty faults =>
    constructor
    · intro h
      cases h
    · rintro ⟨_, h, -⟩
      cases h

theorem seq_eq_ok {f : Checked (α → β)} {x : Checked α} {b : β} :
    f <*> x = .ok b ↔ ∃ g a, f = .ok g ∧ x = .ok a ∧ g a = b := by
  cases f with
  | ok g =>
    cases x with
    | ok a => simp
    | faulty faults =>
      constructor
      · intro h
        cases h
      · rintro ⟨_, _, -, h, -⟩
        cases h
  | faulty faults =>
    constructor
    · intro h
      cases x <;> cases h
    · rintro ⟨_, _, h, -⟩
      cases h

theorem map_of_ok (f : α → β) {x : Checked α} {a : α} (hx : x = .ok a) : f <$> x = .ok (f a) :=
  map_eq_ok.mpr ⟨a, hx, rfl⟩

theorem seq_of_ok {f : Checked (α → β)} {g : α → β} {x : Checked α} {a : α} (hf : f = .ok g)
    (hx : x = .ok a) : f <*> x = .ok (g a) :=
  seq_eq_ok.mpr ⟨g, a, hf, hx, rfl⟩

theorem within_eq_ok {step : Step} {x : Checked α} {a : α} :
    x.within step = .ok a ↔ x = .ok a := by
  cases x with
  | ok b => rfl
  | faulty faults => simp [within]

theorem andThen_eq_ok {f : α → Checked β} {x : Checked α} {b : β} :
    x.andThen f = .ok b ↔ ∃ a, x = .ok a ∧ f a = .ok b := by
  cases x with
  | ok a => simp
  | faulty faults => simp [andThen]

end Checked

/-- Every value that a reader gives has the property. -/
def Ensures {ι α : Type} (read : ι → Checked α) (P : α → Prop) : Prop :=
  ∀ {j a}, read j = .ok a → P a

variable {α : Type} {read : Json → Checked α} {P : α → Prop}

theorem ensures_nonEmptyString : Ensures nonEmptyString (· ≠ "") := by
  intro j s h
  obtain ⟨t, -, ht⟩ := Checked.andThen_eq_ok.mp h
  split at ht
  · cases ht
  · rename_i hne
    cases ht
    exact hne

theorem ensures_itemsFrom (h : Ensures read P) (i : Nat) :
    Ensures (itemsFrom read i) fun l => ∀ a ∈ l, P a := by
  intro items l hl
  induction items generalizing i l with
  | nil =>
    cases hl
    simp
  | cons j rest ih =>
    obtain ⟨tail, as, hhead, has, rfl⟩ := Checked.seq_eq_ok.mp hl
    obtain ⟨a, ha, rfl⟩ := Checked.map_eq_ok.mp hhead
    exact List.forall_mem_cons.mpr ⟨h (Checked.within_eq_ok.mp ha), ih (i + 1) has⟩

theorem ensures_list (h : Ensures read P) : Ensures (list read) fun l => ∀ a ∈ l, P a := by
  intro j l hl
  cases j with
  | arr items => exact ensures_itemsFrom h 0 hl
  | _ => cases hl

theorem ensures_required (h : Ensures read P) (key : String) : Ensures (required key read) P := by
  intro ms a ha
  rw [required] at ha
  split at ha
  · exact h (Checked.within_eq_ok.mp ha)
  · cases ha

theorem ensures_optional (h : Ensures read P) (key : String) {default : α} (hdefault : P default) :
    Ensures (optional key read default) P := by
  intro ms a ha
  rw [optional] at ha
  split at ha
  · exact h (Checked.within_eq_ok.mp ha)
  · cases ha
    exact hdefault

theorem ensures_record {kind : Record} {read : Members → Checked α} (h : Ensures read P) :
    Ensures (record kind read) P := by
  intro j a ha
  cases j with
  | obj members => exact h ha
  | _ => cases ha

/-! ### Reading what is there -/

variable {key : String} {ms : Members} {j : Json} {a : α}

theorem required_of_lookup (hkey : ms.lookup key = some j) (h : read j = .ok a) :
    required key read ms = .ok a := by
  simp only [required, hkey, h, Checked.within_ok]

theorem optional_of_lookup {default : α} (hkey : ms.lookup key = some j) (h : read j = .ok a) :
    optional key read default ms = .ok a := by
  simp only [optional, hkey, h, Checked.within_ok]

theorem eitherKey_of_lookup {other : String} {default : α} (hkey : ms.lookup key = some j)
    (h : read j = .ok a) : eitherKey key other read default ms = .ok a := by
  simp only [eitherKey, hkey, h, Checked.within_ok]

theorem eitherKey_of_lookup_other {other : String} {default : α} (hkey : ms.lookup key = none)
    (hother : ms.lookup other = some j) (h : read j = .ok a) :
    eitherKey key other read default ms = .ok a := by
  simp only [eitherKey, hkey, optional_of_lookup hother h]

theorem nonEmptyString_str {s : String} (h : s ≠ "") : nonEmptyString (.str s) = .ok s := by
  simp only [nonEmptyString, string, Checked.andThen_ok, if_neg h]

theorem itemsFrom_map {write : α → Json} {l : List α} (h : ∀ a ∈ l, read (write a) = .ok a)
    (i : Nat) : itemsFrom read i (l.map write) = .ok l := by
  induction l generalizing i with
  | nil => rfl
  | cons a l ih =>
    have hrest := ih (fun a ha => h a (List.mem_cons_of_mem _ ha)) (i + 1)
    simp only [List.map_cons, itemsFrom, h a List.mem_cons_self, hrest, Checked.within_ok,
      Checked.map_ok, Checked.seq_ok]

theorem list_map {write : α → Json} {l : List α} (h : ∀ a ∈ l, read (write a) = .ok a) :
    list read (.arr (l.map write)) = .ok l := itemsFrom_map h 0

theorem strings_ofStrings (l : List String) : strings (.ofStrings l) = .ok l :=
  list_map fun _ _ => rfl

end Schema

open Schema

/-! ### Records, member by member -/

theorem Parameter.ofMembers_eq_ok {ms : Members} {p : Parameter} :
    ofMembers ms = .ok p ↔
      required "name" nonEmptyString ms = .ok p.name ∧
        optional "type" ParameterType.ofJson .string ms = .ok p.type ∧
        optional "value" string "" ms = .ok p.value ∧
        optional "default_value" string "" ms = .ok p.defaultValue ∧
        optional "description" string "" ms = .ok p.description ∧
        optional "is_mandatory" bool false ms = .ok p.isMandatory ∧
        optional "valid_values" strings [] ms = .ok p.validValues := by
  constructor
  · intro h
    obtain ⟨_, validValues, h₁, hvalid, rfl⟩ := Checked.seq_eq_ok.mp h
    obtain ⟨_, isMandatory, h₂, hmandatory, rfl⟩ := Checked.seq_eq_ok.mp h₁
    obtain ⟨_, description, h₃, hdescription, rfl⟩ := Checked.seq_eq_ok.mp h₂
    obtain ⟨_, defaultValue, h₄, hdefault, rfl⟩ := Checked.seq_eq_ok.mp h₃
    obtain ⟨_, value, h₅, hvalue, rfl⟩ := Checked.seq_eq_ok.mp h₄
    obtain ⟨_, type, h₆, htype, rfl⟩ := Checked.seq_eq_ok.mp h₅
    obtain ⟨name, hname, rfl⟩ := Checked.map_eq_ok.mp h₆
    exact ⟨hname, htype, hvalue, hdefault, hdescription, hmandatory, hvalid⟩
  · rintro ⟨hname, htype, hvalue, hdefault, hdescription, hmandatory, hvalid⟩
    simp only [ofMembers, hname, htype, hvalue, hdefault, hdescription, hmandatory, hvalid,
      Checked.map_ok, Checked.seq_ok]

theorem Block.ofMembers_eq_ok {ms : Members} {b : Block} :
    ofMembers ms = .ok b ↔
      required "id" nonEmptyString ms = .ok b.id ∧
        optional "title" string "New Block" ms = .ok b.title ∧
        optional "category" string "Custom" ms = .ok b.category ∧
        optional "command" string "" ms = .ok b.command ∧
        optional "script_body" string "" ms = .ok b.scriptBody ∧
        optional "output_variable" string "" ms = .ok b.outputVariable ∧
        optional "parameters" (list Parameter.ofJson) [] ms = .ok b.parameters ∧
        optional "inputs" strings ["In"] ms = .ok b.inputs ∧
        optional "outputs" strings ["Out"] ms = .ok b.outputs ∧
        optional "container" Container.ofJson? none ms = .ok b.container := by
  constructor
  · intro h
    obtain ⟨_, container, h₁, hcontainer, rfl⟩ := Checked.seq_eq_ok.mp h
    obtain ⟨_, outputs, h₂, houtputs, rfl⟩ := Checked.seq_eq_ok.mp h₁
    obtain ⟨_, inputs, h₃, hinputs, rfl⟩ := Checked.seq_eq_ok.mp h₂
    obtain ⟨_, parameters, h₄, hparameters, rfl⟩ := Checked.seq_eq_ok.mp h₃
    obtain ⟨_, outputVariable, h₅, houtput, rfl⟩ := Checked.seq_eq_ok.mp h₄
    obtain ⟨_, scriptBody, h₆, hbody, rfl⟩ := Checked.seq_eq_ok.mp h₅
    obtain ⟨_, command, h₇, hcommand, rfl⟩ := Checked.seq_eq_ok.mp h₆
    obtain ⟨_, category, h₈, hcategory, rfl⟩ := Checked.seq_eq_ok.mp h₇
    obtain ⟨_, title, h₉, htitle, rfl⟩ := Checked.seq_eq_ok.mp h₈
    obtain ⟨id, hid, rfl⟩ := Checked.map_eq_ok.mp h₉
    exact ⟨hid, htitle, hcategory, hcommand, hbody, houtput, hparameters, hinputs, houtputs,
      hcontainer⟩
  · rintro ⟨hid, htitle, hcategory, hcommand, hbody, houtput, hparameters, hinputs, houtputs,
      hcontainer⟩
    simp only [ofMembers, hid, htitle, hcategory, hcommand, hbody, houtput, hparameters, hinputs,
      houtputs, hcontainer, Checked.map_ok, Checked.seq_ok]

theorem Connection.ofMembers_eq_ok {ms : Members} {c : Connection} :
    ofMembers ms = .ok c ↔
      required "from_block_id" nonEmptyString ms = .ok c.source ∧
        optional "from_port_id" string "Out" ms = .ok c.outlet ∧
        required "to_block_id" nonEmptyString ms = .ok c.target ∧
        optional "to_port_id" string "In" ms = .ok c.inlet := by
  constructor
  · intro h
    obtain ⟨_, inlet, h₁, hinlet, rfl⟩ := Checked.seq_eq_ok.mp h
    obtain ⟨_, target, h₂, htarget, rfl⟩ := Checked.seq_eq_ok.mp h₁
    obtain ⟨_, outlet, h₃, houtlet, rfl⟩ := Checked.seq_eq_ok.mp h₂
    obtain ⟨source, hsource, rfl⟩ := Checked.map_eq_ok.mp h₃
    exact ⟨hsource, houtlet, htarget, hinlet⟩
  · rintro ⟨hsource, houtlet, htarget, hinlet⟩
    simp only [ofMembers, hsource, houtlet, htarget, hinlet, Checked.map_ok, Checked.seq_ok]

theorem Snapshot.ofMembers_eq_ok {ms : Members} {s : Snapshot} :
    ofMembers ms = .ok s ↔
      optional "blocks" blocksOfJson [] ms = .ok s.blocks ∧
        optional "connections" connectionsOfJson [] ms = .ok s.connections ∧
        (s.blocks.map Block.id).Nodup := by
  constructor
  · intro h
    obtain ⟨t, ht, hdistinct⟩ := Checked.andThen_eq_ok.mp h
    obtain ⟨_, connections, h₁, hconnections, rfl⟩ := Checked.seq_eq_ok.mp ht
    obtain ⟨blocks, hblocks, rfl⟩ := Checked.map_eq_ok.mp h₁
    rw [distinct] at hdistinct
    split at hdistinct
    · rename_i hnodup
      cases hdistinct
      exact ⟨hblocks, hconnections, hnodup⟩
    · cases hdistinct
  · rintro ⟨hblocks, hconnections, hnodup⟩
    simp only [ofMembers, hblocks, hconnections, Checked.map_ok, Checked.seq_ok,
      Checked.andThen_ok, distinct, if_pos hnodup]

/-! ### What reading makes sure of -/

theorem Parameter.ensures_ofJson : Ensures ofJson fun p => p.name ≠ "" := by
  apply ensures_record
  intro ms p h
  obtain ⟨hname, -⟩ := ofMembers_eq_ok.mp h
  exact ensures_required ensures_nonEmptyString _ hname

/-- What reading makes sure of a block. -/
structure Block.Readable (b : Block) : Prop where
  id_nonempty : b.id ≠ ""
  names_nonempty : ∀ p ∈ b.parameters, p.name ≠ ""

theorem Block.ensures_ofJson : Ensures ofJson Readable := by
  apply ensures_record
  intro ms b h
  obtain ⟨hid, -, -, -, -, -, hparameters, -⟩ := ofMembers_eq_ok.mp h
  constructor
  · exact ensures_required ensures_nonEmptyString _ hid
  · exact ensures_optional (ensures_list Parameter.ensures_ofJson) _ (by simp) hparameters

theorem Connection.ensures_ofJson : Ensures ofJson fun c => c.source ≠ "" ∧ c.target ≠ "" := by
  apply ensures_record
  intro ms c h
  obtain ⟨hsource, -, htarget, -⟩ := ofMembers_eq_ok.mp h
  exact ⟨ensures_required ensures_nonEmptyString _ hsource,
    ensures_required ensures_nonEmptyString _ htarget⟩

namespace Snapshot

theorem ensures_blocksOfJson :
    Ensures blocksOfJson fun blocks => blocks.length ≤ maxBlocks ∧ ∀ b ∈ blocks, b.Readable := by
  intro j blocks h
  obtain ⟨read, hread, h⟩ := Checked.andThen_eq_ok.mp h
  split at h
  · cases h
  · rename_i hle
    cases h
    exact ⟨Nat.le_of_not_lt hle, ensures_list Block.ensures_ofJson hread⟩

theorem ensures_connectionsOfJson :
    Ensures connectionsOfJson fun connections => connections.length ≤ maxConnections ∧
      ∀ c ∈ connections, c.source ≠ "" ∧ c.target ≠ "" := by
  intro j connections h
  obtain ⟨read, hread, h⟩ := Checked.andThen_eq_ok.mp h
  split at h
  · cases h
  · rename_i hle
    cases h
    exact ⟨Nat.le_of_not_lt hle, ensures_list Connection.ensures_ofJson hread⟩

/-- What reading makes sure of a snapshot. -/
structure Readable (s : Snapshot) : Prop extends s.Valid where
  blocks_readable : ∀ b ∈ s.blocks, b.Readable

/-- **A snapshot that is read is valid, and its parameters have names.** -/
theorem ensures_ofJson : Ensures ofJson Readable := by
  apply ensures_record
  intro ms s h
  obtain ⟨hblocks, hconnections, hnodup⟩ := ofMembers_eq_ok.mp h
  have hb := ensures_optional ensures_blocksOfJson _ (by simp) hblocks
  have hc := ensures_optional ensures_connectionsOfJson _ (by simp) hconnections
  exact ⟨⟨hb.1, hc.1, hnodup, fun b hmem => (hb.2 b hmem).id_nonempty, hc.2⟩, hb.2⟩

end Snapshot

/-! ### Reading what is written -/

theorem ParameterType.ofJson_name (t : ParameterType) : ofJson (.str t.name) = .ok t := by
  rw [ofJson, ofName?_name]

theorem Parameter.ofJson_toJson {p : Parameter} (h : p.name ≠ "") : ofJson p.toJson = .ok p := by
  apply ofMembers_eq_ok.mpr
  exact ⟨required_of_lookup rfl (nonEmptyString_str h),
    optional_of_lookup rfl p.type.ofJson_name, optional_of_lookup rfl rfl,
    optional_of_lookup rfl rfl, optional_of_lookup rfl rfl, optional_of_lookup rfl rfl,
    optional_of_lookup rfl (strings_ofStrings p.validValues)⟩

theorem Connection.ofJson_toJson {c : Connection} (hsource : c.source ≠ "")
    (htarget : c.target ≠ "") : ofJson c.toJson = .ok c := by
  apply ofMembers_eq_ok.mpr
  exact ⟨required_of_lookup rfl (nonEmptyString_str hsource), optional_of_lookup rfl rfl,
    required_of_lookup rfl (nonEmptyString_str htarget), optional_of_lookup rfl rfl⟩

namespace Container

open Checked

theorem ofJson_of_kind (kind : ContainerKind) {ms : Members} {c : Container}
    (hkind : ms.lookup "kind" = some (.str kind.name)) (h : ofMembers kind ms = .ok c) :
    ofJson (.obj ms) = .ok c := by
  simp only [ofJson, hkind, ContainerKind.ofTag?, ContainerKind.ofName?_name, h, Checked.within_ok]

/-- **Every container is read back**, in either spelling of its keys. -/
theorem ofJson_toJson (style : KeyStyle) (c : Container) : ofJson (c.toJson style) = .ok c := by
  cases c with
  | ifElse condition thenChildren elseChildren =>
    refine ofJson_of_kind .ifElse rfl (seq_of_ok (seq_of_ok (map_of_ok _ ?_) ?_) ?_)
    · exact optional_of_lookup rfl rfl
    · exact optional_of_lookup rfl (strings_ofStrings thenChildren)
    · cases style with
      | plain => exact eitherKey_of_lookup rfl (strings_ofStrings elseChildren)
      | underscored => exact eitherKey_of_lookup_other rfl rfl (strings_ofStrings elseChildren)
  | forEach body =>
    refine ofJson_of_kind .forEach rfl (map_of_ok _ ?_)
    exact optional_of_lookup rfl (strings_ofStrings body)
  | whileLoop condition body =>
    refine ofJson_of_kind .whileLoop rfl (seq_of_ok (map_of_ok _ ?_) ?_)
    · exact optional_of_lookup rfl rfl
    · exact optional_of_lookup rfl (strings_ofStrings body)
  | tryCatch tryChildren catchChildren =>
    refine ofJson_of_kind .tryCatch rfl (seq_of_ok (map_of_ok _ ?_) ?_)
    · cases style with
      | plain => exact eitherKey_of_lookup rfl (strings_ofStrings tryChildren)
      | underscored => exact eitherKey_of_lookup_other rfl rfl (strings_ofStrings tryChildren)
    · cases style <;> exact optional_of_lookup rfl (strings_ofStrings catchChildren)
  | function name inputParam body =>
    refine ofJson_of_kind .function rfl (seq_of_ok (seq_of_ok (map_of_ok _ ?_) ?_) ?_)
    · exact optional_of_lookup rfl rfl
    · exact optional_of_lookup rfl rfl
    · exact optional_of_lookup rfl (strings_ofStrings body)

theorem ofJson?_toJson (style : KeyStyle) (c : Option Container) :
    ofJson? ((c.map (toJson style)).getD .null) = .ok c := by
  cases c with
  | none => rfl
  | some c => exact map_of_ok some (ofJson_toJson style c)

end Container

/-- **A block that meets the conditions of reading is read back.** -/
theorem Block.ofJson_toJson (style : KeyStyle) {b : Block} (h : b.Readable) :
    ofJson (b.toJson style) = .ok b := by
  have hparameters : list Parameter.ofJson (.arr (b.parameters.map Parameter.toJson)) =
      .ok b.parameters := list_map fun p hp => Parameter.ofJson_toJson (h.names_nonempty p hp)
  apply ofMembers_eq_ok.mpr
  refine ⟨required_of_lookup rfl (nonEmptyString_str h.id_nonempty), optional_of_lookup rfl rfl,
    optional_of_lookup rfl rfl, optional_of_lookup rfl rfl, optional_of_lookup rfl rfl,
    optional_of_lookup rfl rfl, optional_of_lookup rfl hparameters, ?_, ?_, ?_⟩
  · exact optional_of_lookup rfl (strings_ofStrings b.inputs)
  · exact optional_of_lookup rfl (strings_ofStrings b.outputs)
  · exact optional_of_lookup rfl (Container.ofJson?_toJson style b.container)

namespace Snapshot

/-- **A snapshot that meets the conditions of reading is read back.** -/
theorem ofJson_toJson (style : KeyStyle) {s : Snapshot} (h : s.Readable) :
    ofJson (s.toJson style) = .ok s := by
  have hblocks : blocksOfJson (.arr (s.blocks.map (Block.toJson style))) = .ok s.blocks := by
    rw [blocksOfJson, list_map fun b hb => Block.ofJson_toJson style (h.blocks_readable b hb),
      Checked.andThen_ok, if_neg (Nat.not_lt.mpr h.blocks_le)]
  have hconnections : connectionsOfJson (.arr (s.connections.map Connection.toJson)) =
      .ok s.connections := by
    have hread : ∀ c ∈ s.connections, Connection.ofJson c.toJson = .ok c := fun c hc =>
      Connection.ofJson_toJson (h.ends_nonempty c hc).1 (h.ends_nonempty c hc).2
    rw [connectionsOfJson, list_map hread, Checked.andThen_ok,
      if_neg (Nat.not_lt.mpr h.connections_le)]
  apply ofMembers_eq_ok.mpr
  exact ⟨optional_of_lookup rfl hblocks, optional_of_lookup rfl hconnections, h.ids_nodup⟩

end Snapshot

/-- **Reading is a projection.**  The snapshot that is read from a document, whatever the
document left out or coerced, is read again from the document it writes, in either spelling of the
keys.  It has at most 500 blocks and 2000 connections, its blocks have distinct ids, and no id and
no end of a connection is empty. -/
theorem reading_is_projection {v : Json} {s : Snapshot} (h : Snapshot.ofJson v = .ok s) :
    (∀ style : KeyStyle, Snapshot.ofJson (s.toJson style) = .ok s) ∧
      s.blocks.length ≤ 500 ∧ s.connections.length ≤ 2000 ∧
      (s.blocks.map Block.id).Nodup ∧ (∀ b ∈ s.blocks, b.id ≠ "") ∧
      ∀ c ∈ s.connections, c.source ≠ "" ∧ c.target ≠ "" := by
  have hs := Snapshot.ensures_ofJson h
  exact ⟨fun style => Snapshot.ofJson_toJson style hs, hs.blocks_le, hs.connections_le,
    hs.ids_nodup, hs.ids_nonempty, hs.ends_nonempty⟩

/-- A document that leaves out what it can, says yes and one for true, writes the one key of two
spellings with an underscore, and has a member that means nothing. -/
def terse : Json :=
  .obj [
    ("connections", .arr [.obj [("from_block_id", .str "rows"), ("to_block_id", .str "choice")]]),
    ("blocks", .arr [
      .obj [("id", .str "rows"), ("parameters", .arr [
        .obj [("name", .str "Path"), ("is_mandatory", .str "YES")],
        .obj [("name", .str "Force"), ("type", .str "bool"), ("is_mandatory", .ofInt 1)]])],
      .obj [("id", .str "choice"), ("colour", .str "red"), ("container",
        .obj [("else_", .ofStrings ["last"]), ("kind", .str "if_else")])],
      .obj [("id", .str "last"), ("container", .null)]])]

def terseSnapshot : Snapshot where
  blocks := [
    { id := "rows", parameters := [
      { name := "Path", isMandatory := true },
      { name := "Force", type := .bool, isMandatory := true }] },
    { id := "choice", container := some (.ifElse "$true" [] ["last"]) },
    { id := "last" }]
  connections := [{ source := "rows", target := "choice" }]

theorem reading_is_projection_terse :
    Snapshot.ofJson terse = .ok terseSnapshot ∧
      Snapshot.ofJson (terseSnapshot.toJson .plain) = .ok terseSnapshot ∧
      Snapshot.ofJson (terseSnapshot.toJson .underscored) = .ok terseSnapshot ∧
      terseSnapshot.blocks.length ≤ 500 := by
  have hread : Snapshot.ofJson terse = .ok terseSnapshot := rfl
  obtain ⟨hagain, hblocks, -⟩ := reading_is_projection hread
  exact ⟨hread, hagain .plain, hagain .underscored, hblocks⟩

end BlockScript
