import BlockScript.Proofs.EmissionLayout
import BlockScript.Proofs.LayoutEntries

/-!
# Definition before use

A statement into which `$name` is piped reads the result of a producer, or it takes over what is
piped into a container around it (`Layout.Traced`).  The producer of what is read lies in the scope
of the reader or in one around it.  In that scope the reader, or the container in which the reader
stands, depends on the producer, so the statement that assigns the producer's result is complete
before the reader begins (`Layout.Prepared`).
-/

namespace BlockScript

open Emit

/-- The block reads the result of its only producer by name. -/
structure Index.Reads (g : Index) (t : Table) (n p : BlockId) (name : String) : Prop where
  only : g.OnlyProducer p n
  seen : g.parent? p ∈ g.scopesFrom (g.parent? n)
  named : t.nameOf p = some name

/-- The entries are a whole statement that assigns the result of `p` to `$name`: a pipeline with
`p` as its last stage, or the container `p`. -/
def Captures (g : Index) (p : BlockId) (name : String) (entries : List Entry) : Prop :=
  ∃ members, Layout.StatementOf g (some name) members entries ∧ members.getLast? = some p

namespace Layout

variable {g : Index} {t : Table} {functions main : List BlockId}

/-! ### What is read -/

theorem inflow_eq_variable {P : Option Place} {input : Option Source} {n p : BlockId}
    {name : String} (h : (inflow g t P input n).1 = some (.variable p name)) :
    ((g.scopeAt P).producers n = [p] ∧ g.readName? t P p = some name) ∨
      input = some (.variable p name) := by
  rw [inflow] at h
  split at h
  · exact Or.inr h
  · rename_i producer hproducers
    split at h
    · rename_i found hname
      obtain ⟨rfl, rfl⟩ : producer = p ∧ found = name := by simpa using h
      exact Or.inl ⟨hproducers, hname⟩
    · split at h
      · cases h
      · exact Or.inr h
  · cases h

theorem reads_of_inflow {input : Option Source} {n p : BlockId} {name : String}
    (h : (inflow g t (g.parent? n) input n).1 = some (.variable p name)) :
    g.Reads t n p name ∨ input = some (.variable p name) := by
  rcases inflow_eq_variable h with ⟨hproducers, hname⟩ | hinput
  · left
    rw [Scope.producers_eq_singleton_iff, Index.scopeAt_index] at hproducers
    rw [Index.readName?] at hname
    split at hname
    · rename_i hseen
      exact ⟨hproducers, hseen, hname⟩
    · cases hname
  · exact Or.inr hinput

/-- What is piped by name into a statement is what its lead reads, or the input of the scope, or it
is taken over from a container around it, whose opening stands before. -/
def Traced (g : Index) (t : Table) (input : Option Source) (entries : List Entry) : Prop :=
  ∀ before e after n p name, entries = before ++ e :: after → e.begins? = some n →
    e.source? = some (.variable p name) →
    g.Reads t n p name ∨ input = some (.variable p name) ∨
      ∃ pre opening post m, before = pre ++ opening :: post ∧ opening.begins? = some m ∧
        opening.source? = some (.variable p name) ∧ m ∈ g.ancestors n ∧
        g.parent? m ∈ g.scopesFrom (g.parent? n) ∧ g.Reads t m p name

/-- Every statement that begins here is that of a block below the scope. -/
def Below (g : Index) (P : Option Place) (entries : List Entry) : Prop :=
  ∀ e ∈ entries, ∀ n, e.begins? = some n → P ∈ g.scopesFrom (g.parent? n)

theorem below_zone (hg : g.Consistent) (depth : Nat) (place : Place) (input : Option Source)
    (level : Int) : Below g (some place) (zone g t depth place input level).entries := by
  intro e he n hn
  exact (hg.sorts_of_mem_scopesIn (begunIn_zone hg depth place input level e he n hn).1).1

theorem traced_scope (hg : g.Consistent) {P : Option Place} {order : List BlockId}
    (hs : OrderedScope (g.scopeAt P) order) {zone : Place → Option Source → Int → Layout}
    (hbelow : ∀ place input level, Below g (some place) (zone place input level).entries)
    (hzone : ∀ place input level, Traced g t input (zone place input level).entries)
    (input : Option Source) (level : Int) (separate : Bool) :
    Traced g t input (scope g t zone P order input level separate).entries := by
  intro before e after n p name hsplit hn hsource
  cases entryAt hg hs hsplit hn with
  | lead l₁ st l₂ split lead_eq before_eq source_eq =>
    have hst : st ∈ (g.scopeAt P).statements order := by rw [split]; simp
    obtain ⟨-, rfl⟩ := hg.mem_scopeAt.mp (lead_eq ▸ lead_mem_scope hs hst)
    rcases reads_of_inflow (source_eq.symm.trans hsource) with hreads | hinput
    · exact Or.inl hreads
    · exact Or.inr (Or.inl hinput)
  | inner l₁ place l₂ split place_mem inside opening mid front back zone_eq begins_eq source_eq
      inside_eq before_eq =>
    rcases hzone place inside (level + 1) front e back n p name zone_eq hn hsource with
      hreads | hinside | ⟨pre, opening', post, m, rfl, hrest⟩
    · exact Or.inl hreads
    · -- the zone has its input from its container
      have hopening : opening.source? = some (.variable p name) := by
        rcases inside_eq with h | h | h <;> rw [h] at hinside
        · exact hinside
        · cases hinside
        · cases hinside
      obtain ⟨hid, hcf, -⟩ := (Index.mem_zonesOf hs).mp place_mem
      obtain ⟨-, hparent⟩ := hg.mem_scopeAt.mp hid
      have hplace := hbelow place inside (level + 1) e (by rw [zone_eq]; simp) n hn
      have houter : g.parent? place.container ∈ g.scopesFrom (g.parent? n) := by
        refine hg.scopesFrom_trans hplace ?_
        rw [hg.scopesFrom_zone hid hcf, hparent]
        exact List.mem_cons_of_mem _ (Index.self_mem_scopesFrom P)
      rw [← hparent] at source_eq
      rcases reads_of_inflow (source_eq.symm.trans hopening) with hreads | hinput
      · rw [List.append_assoc] at before_eq
        exact Or.inr (Or.inr ⟨_, opening, _, place.container, before_eq, begins_eq, hopening,
          hg.container_mem_ancestors hplace, houter, hreads⟩)
      · exact Or.inr (Or.inl hinput)
    · rw [← List.append_assoc] at before_eq
      exact Or.inr (Or.inr ⟨_, opening', post, m, before_eq, hrest⟩)

theorem traced_zone (hg : g.Consistent) (depth : Nat) (place : Place) (input : Option Source)
    (level : Int) : Traced g t input (zone g t depth place input level).entries := by
  induction depth using Nat.strong_induction_on generalizing place input level with
  | _ depth ih =>
    rcases zone_cases g t depth place input level with
      ⟨hnone, -⟩ | ⟨inner, order, rfl, hsorted, heq, -⟩
    · intro before e after n p name hsplit hn
      rcases hnone e (by rw [hsplit]; simp) with rfl | rfl <;> cases hn
    · rw [heq]
      exact traced_scope hg (hg.orderedScope hsorted) (below_zone hg inner) (ih inner (by omega))
        input level false

/-- In a whole script there is no other input that is named. -/
theorem traced_script (h : g.Ordering functions main) :
    Traced g t none (script g t functions main).entries := by
  have hg := h.consistent
  intro before e after n p name hsplit hn hsource
  cases scriptAt h hsplit hn with
  | body id mem input level input_ne pre front back zone_eq before_eq =>
    rcases traced_zone hg _ _ _ _ front e back n p name zone_eq hn hsource with
      hreads | hinput | ⟨pre', opening, post, m, rfl, hrest⟩
    · exact Or.inl hreads
    · exact absurd hinput (input_ne p name)
    · rw [← List.append_assoc] at before_eq
      exact Or.inr (Or.inr ⟨_, opening, post, m, before_eq, hrest⟩)
  | top ne pre front back scope_eq before_eq =>
    rcases traced_scope hg h.orderedTop (below_zone hg _) (traced_zone hg _) none 0 true front e
      back n p name scope_eq hn hsource with hreads | hinput | ⟨pre', opening, post, m, rfl, hrest⟩
    · exact Or.inl hreads
    · cases hinput
    · rw [← List.append_assoc] at before_eq
      exact Or.inr (Or.inr ⟨_, opening, post, m, before_eq, hrest⟩)

/-! ### What is assigned before -/

/-- A statement with a named block in it assigns the result of that block: in a chain the block is
the last one. -/
theorem captures_statement (h : g.Named t functions main) {P : Option Place}
    {order : List BlockId} (hs : OrderedScope (g.scopeAt P) order) {st : Statement}
    (hst : st ∈ (g.scopeAt P).statements order) {p : BlockId} (hp : p ∈ st.members)
    {name : String} (hname : t.nameOf p = some name)
    (zone : Place → Option Source → Int → Layout) (input : Option Source) (level : Int) :
    Captures g p name (statement g t zone P input level st).entries := by
  have hg := h.consistent
  have hlast : st.members.getLast? = some p := by
    cases st with
    | container id => rw [List.mem_singleton.mp hp, Statement.members, List.getLast?_singleton]
    | chain c =>
      have hc := hs.chain_mem_iff.mp hst
      obtain ⟨-, rfl⟩ := hg.mem_scopeAt.mp (hs.runs.inside c hc p hp).1
      have hread := ((h.isSome_nameOf p).mp (by rw [hname]; rfl)).2.2
      rw [hs.eq_terminal_of_isRead hc hp hread]
      exact c.getLast?_members
  have hstatement := @statementOf_statement g t zone P order input level hg hs st hst
  rw [hlast, Option.bind_some, hname] at hstatement
  exact ⟨st.members, hstatement, hlast⟩

/-- What the lead of a statement depends on is assigned by the statements before it. -/
theorem exists_captures (h : g.Named t functions main) {P : Option Place}
    {order : List BlockId} (hs : OrderedScope (g.scopeAt P) order) {l₁ l₂ : List Statement}
    {st : Statement} (hsplit : (g.scopeAt P).statements order = l₁ ++ st :: l₂) {p : BlockId}
    (hp : p ∈ (g.scopeAt P).dependencies st.lead) {name : String} (hname : t.nameOf p = some name)
    (zone : Place → Option Source → Int → Layout) (input : Option Source) (level : Int)
    (separate : Bool) :
    ∃ pre stmt post, statementEntries g t zone P input level separate l₁ = pre ++ stmt ++ post ∧
      Captures g p name stmt := by
  obtain ⟨st', hst', hpst'⟩ := hs.statement_before hsplit hp
  have hmem : st' ∈ (g.scopeAt P).statements order := by
    rw [hsplit]
    exact List.mem_append_left _ hst'
  obtain ⟨a, b, rfl⟩ := List.append_of_mem hst'
  refine ⟨statementEntries g t zone P input level separate a, _,
    (if separate then [.blank] else []) ++ statementEntries g t zone P input level separate b, ?_,
    captures_statement h hs hmem hpst' hname zone input level⟩
  simp only [statementEntries, List.flatMap_append, List.flatMap_cons, entries_spaced,
    List.append_assoc]

/-- What a statement reads from the scope `P` or from below is assigned before. -/
def Prepared (g : Index) (t : Table) (P : Option Place) (entries : List Entry) : Prop :=
  ∀ before e after n p name, entries = before ++ e :: after → e.begins? = some n →
    g.Reads t n p name → p ∉ g.ancestors n → P ∈ g.scopesFrom (g.parent? p) →
    ∃ pre stmt post, before = pre ++ stmt ++ post ∧ Captures g p name stmt

/-- The producer is in the scope itself, and then the statement that leads to the reader depends on
it, or it lies further in. -/
theorem prepared_scope (h : g.Named t functions main) {P : Option Place} {order : List BlockId}
    (hs : OrderedScope (g.scopeAt P) order) {zone : Place → Option Source → Int → Layout}
    (hbelow : ∀ place input level, Below g (some place) (zone place input level).entries)
    (hzone : ∀ place input level, Prepared g t (some place) (zone place input level).entries)
    (input : Option Source) (level : Int) (separate : Bool) :
    Prepared g t P (scope g t zone P order input level separate).entries := by
  have hg := h.consistent
  intro before e after n p name hsplit hn hreads hnot hP
  obtain ⟨c, hc, hcp, hcn⟩ := hreads.only.feeds
  have hpids : p ∈ g.ids := ((h.isSome_nameOf p).mp (by rw [hreads.named]; rfl)).1
  cases entryAt hg hs hsplit hn with
  | lead l₁ st l₂ split lead_eq before_eq =>
    have hst : st ∈ (g.scopeAt P).statements order := by rw [split]; simp
    obtain ⟨-, hparent⟩ := hg.mem_scopeAt.mp (lead_eq ▸ lead_mem_scope hs hst)
    have hown : P = g.parent? p := hg.eq_of_mem_scopesFrom (hparent ▸ hreads.seen) hP
    have hdep : p ∈ (g.scopeAt P).dependencies st.lead := by
      rw [lead_eq, Scope.mem_dependencies, Index.scopeAt_index]
      exact ⟨hg.mem_scopeAt.mpr ⟨hpids, hown.symm⟩, c, hc, hcp, Or.inl hcn⟩
    rw [before_eq]
    exact exists_captures h hs split hdep hreads.named zone input level separate
  | inner l₁ place l₂ split place_mem inside opening mid front back zone_eq begins_eq source_eq
      inside_eq before_eq =>
    have hplace := hbelow place inside (level + 1) e (by rw [zone_eq]; simp) n hn
    obtain ⟨hid, hcf, -⟩ := (Index.mem_zonesOf hs).mp place_mem
    have hinside : some place ∈ g.scopesFrom (g.parent? p) →
        ∃ pre stmt post, before = pre ++ stmt ++ post ∧ Captures g p name stmt := by
      intro hin
      obtain ⟨pre, stmt, post, rfl, hcaptures⟩ :=
        hzone place inside (level + 1) front e back n p name zone_eq hn hreads hnot hin
      rw [← List.append_assoc, ← List.append_assoc] at before_eq
      exact ⟨_, stmt, post, before_eq, hcaptures⟩
    rcases hg.mem_scopesFrom_total hplace hreads.seen with hout | hin
    · rw [hg.scopesFrom_zone hid hcf place.zone, List.mem_cons] at hout
      rcases hout with heq | hout
      · exact hinside (by rw [heq]; exact Index.self_mem_scopesFrom _)
      · have hown : P = g.parent? p := hg.eq_of_mem_scopesFrom hout hP
        have hanc := hg.container_mem_ancestors hplace
        have hdep : p ∈ (g.scopeAt P).dependencies place.container := by
          rw [Scope.mem_dependencies, Index.scopeAt_index]
          refine ⟨hg.mem_scopeAt.mpr ⟨hpids, hown.symm⟩, c, hc, hcp, Or.inr ⟨?_, hcn ▸ hanc⟩⟩
          rintro rfl
          exact hnot hanc
        obtain ⟨pre, stmt, post, hpre, hcaptures⟩ :=
          exists_captures h hs split hdep hreads.named zone input level separate
        refine ⟨pre, stmt, post ++ opening :: mid ++ front, ?_, hcaptures⟩
        rw [before_eq, hpre]
        simp only [List.append_assoc, List.cons_append]
    · exact hinside hin

theorem prepared_zone (h : g.Named t functions main) (depth : Nat) (place : Place)
    (input : Option Source) (level : Int) :
    Prepared g t (some place) (zone g t depth place input level).entries := by
  have hg := h.consistent
  induction depth using Nat.strong_induction_on generalizing place input level with
  | _ depth ih =>
    rcases zone_cases g t depth place input level with
      ⟨hnone, -⟩ | ⟨inner, order, rfl, hsorted, heq, -⟩
    · intro before e after n p name hsplit hn
      rcases hnone e (by rw [hsplit]; simp) with rfl | rfl <;> cases hn
    · rw [heq]
      exact prepared_scope h (hg.orderedScope hsorted) (below_zone hg inner) (ih inner (by omega))
        input level false

/-- Where the way outward ends there is nothing further out to read. -/
theorem mem_scopesFrom_of_root (hg : g.Consistent) {P Q R : Option Place}
    (hR : R ∈ g.scopesFrom P) (hroot : g.scopesFrom R = [R]) (hQ : Q ∈ g.scopesFrom P) :
    R ∈ g.scopesFrom Q := by
  rcases hg.mem_scopesFrom_total hR hQ with hout | hin
  · rw [hroot, List.mem_singleton] at hout
    rw [hout]
    exact Index.self_mem_scopesFrom R
  · exact hin

/-- **What a statement of a script reads is assigned before**, by a statement that is complete. -/
theorem exists_captures_script (h : g.Named t functions main) {before after : List Entry}
    {e : Entry} {n p : BlockId} {name : String}
    (hsplit : (script g t functions main).entries = before ++ e :: after)
    (hn : e.begins? = some n) (hreads : g.Reads t n p name) (hnot : p ∉ g.ancestors n) :
    ∃ pre stmt post, before = pre ++ stmt ++ post ∧ Captures g p name stmt := by
  have hg := h.consistent
  cases scriptAt h.toOrdering hsplit hn with
  | body id mem input level input_ne pre front back zone_eq before_eq =>
    have hbelow := below_zone hg _ _ _ _ e (by rw [zone_eq]; simp) n hn
    have hroot := Index.Ordering.scopesFrom_body ((h.mem_functions id).mp mem)
    obtain ⟨pre', stmt, post, rfl, hcaptures⟩ := prepared_zone h _ _ _ _ front e back n p name
      zone_eq hn hreads hnot (mem_scopesFrom_of_root hg hbelow hroot hreads.seen)
    rw [← List.append_assoc, ← List.append_assoc] at before_eq
    exact ⟨_, stmt, post, before_eq, hcaptures⟩
  | top ne pre front back scope_eq before_eq =>
    have hbelow := (h.none_mem_scopesFrom (by simpa using (begunIn_scope hg h.top
      (begunIn_zone hg _) none 0 true e (by rw [scope_eq]; simp) n hn).1)).1
    obtain ⟨pre', stmt, post, rfl, hcaptures⟩ := prepared_scope h h.orderedTop (below_zone hg _)
      (prepared_zone h _) none 0 true front e back n p name scope_eq hn hreads hnot
      (mem_scopesFrom_of_root hg hbelow Index.scopesFrom_none hreads.seen)
    rw [← List.append_assoc, ← List.append_assoc] at before_eq
    exact ⟨_, stmt, post, before_eq, hcaptures⟩

end Layout

/-- The script has a whole statement that assigns the result of `p` to `$name`, and all its lines
stand before those of the entry `e`. -/
def AssignedBefore (g : Index) (es : List Entry) (e : Entry) (after : List Entry) (p : BlockId)
    (name : String) : Prop :=
  ∃ pre stmt post, es = pre ++ stmt ++ post ++ e :: after ∧ Captures g p name stmt ∧
    ∀ options : GeneratorOptions, Plan.lines options es =
      Plan.lines options pre ++ stmt.flatMap (Entry.lines options.indentSize) ++
        post.flatMap (Entry.lines options.indentSize) ++ e.lines options.indentSize ++
        after.flatMap (Entry.lines options.indentSize)

theorem assignedBefore_of_captures {g : Index} {es before after : List Entry} {e : Entry}
    {p : BlockId} {name : String} (hsplit : es = before ++ e :: after)
    (h : ∃ pre stmt post, before = pre ++ stmt ++ post ∧ Captures g p name stmt) :
    AssignedBefore g es e after p name := by
  obtain ⟨pre, stmt, post, rfl, hcaptures⟩ := h
  refine ⟨pre, stmt, post, hsplit, hcaptures, fun options => ?_⟩
  simp only [hsplit, Plan.lines, List.flatMap_append, List.flatMap_cons, List.append_assoc]

/-- **Definition before use.**  Let `$name` for the result of `p` be piped into the statement of
`n`.  When `p` is the producer of `n`, it lies in the scope of `n` or in one around it that is
reached without leaving a function, and unless `p` is a container around `n`, the statement that
assigns `$name` is complete before the statement of `n` begins.  Otherwise `n` takes over what is
piped into a container `m` around it, whose opening stands before, and the same holds of `m`. -/
theorem definition_before_use {s : Snapshot} (hs : s.Valid) {suffixLength : Int}
    {es : List Entry} (h : (s.plan suffixLength).entries? = some es)
    {before after : List Entry} {e : Entry} (hsplit : es = before ++ e :: after)
    {n p : BlockId} {name : String} (hn : e.begins? = some n)
    (hsource : e.source? = some (.variable p name)) :
    ⟨p, name⟩ ∈ (s.plan suffixLength).pass.table.entries ∧
      (s.index.OnlyProducer p n →
        s.index.parent? p ∈ s.index.scopesFrom (s.index.parent? n) ∧
          (p ∉ s.index.ancestors n → AssignedBefore s.index es e after p name)) ∧
      (¬ s.index.OnlyProducer p n →
        ∃ m ∈ s.index.ancestors n, (∃ opening ∈ before, opening.begins? = some m ∧
            opening.source? = some (.variable p name)) ∧
          s.index.OnlyProducer p m ∧
          s.index.parent? m ∈ s.index.scopesFrom (s.index.parent? n) ∧
          s.index.parent? p ∈ s.index.scopesFrom (s.index.parent? m) ∧
          (p ∉ s.index.ancestors m → AssignedBefore s.index es e after p name)) := by
  obtain ⟨functions, main, hnamed, hes, -⟩ := Snapshot.plan_spec hs h
  have hg := hnamed.consistent
  have hscript := hes.symm.trans hsplit
  rcases Layout.traced_script hnamed.toOrdering before e after n p name hscript hn hsource with
    hreads | hnone | ⟨pre, opening, post, m, hbefore, hbegins, hopening, hanc, houter, hreads⟩
  · refine ⟨Binding.mem_of_nameIn hreads.named, fun _ => ⟨hreads.seen, fun hnot => ?_⟩,
      fun hnot => absurd hreads.only hnot⟩
    exact assignedBefore_of_captures hsplit
      (Layout.exists_captures_script hnamed hscript hn hreads hnot)
  · cases hnone
  · refine ⟨Binding.mem_of_nameIn hreads.named, fun honly => ?_, fun _ => ?_⟩
    · have hseen := hg.scopesFrom_trans houter hreads.seen
      refine ⟨hseen, fun hnot => ?_⟩
      exact assignedBefore_of_captures hsplit
        (Layout.exists_captures_script hnamed hscript hn ⟨honly, hseen, hreads.named⟩ hnot)
    · refine ⟨m, hanc, ⟨opening, by simp [hbefore], hbegins, hopening⟩, hreads.only, houter,
        hreads.seen, fun hnot => ?_⟩
      -- what stands before the container stands before the block
      rw [hbefore, List.append_assoc] at hscript
      obtain ⟨pre', stmt, post', rfl, hcaptures⟩ :=
        Layout.exists_captures_script hnamed hscript hbegins hreads hnot
      refine assignedBefore_of_captures hsplit ⟨pre', stmt, post' ++ opening :: post, ?_, hcaptures⟩
      rw [hbefore]
      simp only [List.append_assoc]

/-- A branch into which `rows` is piped, with two blocks in it: `show` takes over what is piped
into the branch, `log` reads `rows` itself. -/
def readers : Snapshot where
  blocks := [
    { id := "branch", container := some (.ifElse "" ["show", "log"] []) },
    { id := "show", command := "Out-Host" },
    { id := "log", command := "Add-Content" },
    { id := "rows", command := "Get-Content", title := "Rows" }]
  connections := [{ source := "rows", target := "branch" }, { source := "rows", target := "log" }]

def readersEntries : List Entry := (readers.plan 4).entries?.getD []

theorem definition_before_use_readers :
    AssignedBefore readers.index readersEntries (readersEntries.getD 5 .blank)
        (readersEntries.drop 6) "rows" "Rows_rows" ∧
      AssignedBefore readers.index readersEntries (readersEntries.getD 6 .blank)
        (readersEntries.drop 7) "rows" "Rows_rows" := by
  have hvalid : readers.Valid := by constructor <;> decide
  have hplan : (readers.plan 4).entries? = some readersEntries := by decide +kernel
  have hshow : readersEntries = readersEntries.take 5 ++ readersEntries.getD 5 .blank ::
      readersEntries.drop 6 := by decide +kernel
  have hlog : readersEntries = readersEntries.take 6 ++ readersEntries.getD 6 .blank ::
      readersEntries.drop 7 := by decide +kernel
  constructor
  · have hnot : ¬ readers.index.OnlyProducer "rows" "show" := by
      intro honly
      have := (@Scope.producers_eq_singleton_iff (readers.index.scopeAt none) _ _).mpr honly
      revert this
      decide +kernel
    have hsource : (readersEntries.getD 5 .blank).source? =
        some (.variable "rows" "Rows_rows") := by decide +kernel
    obtain ⟨m, hm, -, -, -, -, hassigned⟩ :=
      (definition_before_use hvalid hplan hshow (by decide +kernel) hsource).2.2 hnot
    have hancestors : readers.index.ancestors "show" = ["branch"] := by decide +kernel
    rw [hancestors, List.mem_singleton] at hm
    exact hassigned (by rw [hm]; decide +kernel)
  · have honly : readers.index.OnlyProducer "rows" "log" :=
      (@Scope.producers_eq_singleton_iff (readers.index.scopeAt none) _ _).mp (by decide +kernel)
    exact ((definition_before_use hvalid hplan hlog (by decide +kernel) (by decide +kernel)).2.1
      honly).2 (by decide +kernel)

end BlockScript
