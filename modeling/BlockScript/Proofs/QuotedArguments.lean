import BlockScript.Proofs.PipelineText

/-!
# Reading quoted arguments back

Inside double quotes a backtick makes the next character stand for itself, and the first quote
without one closes the literal; `Text.readLiteral` reads so, and `Text.ReadsAs` reads literals with
commas between them.  A text that holds neither a backtick nor a quote reads as it stands, and with
a backtick before each quote a text without backticks reads back too.

Backticks are what is lost.  Each quote and each backtick of what is read takes two characters to
write (`Text.counts_of_readQuoted`), and of backticks in a row every second one is left
(`Text.ticks_of_readQuoted`).  So these conditions are not only sufficient:

* `argument_reads_back_iff`: **which arguments read back as the value of their parameter.**
-/

namespace BlockScript

namespace Text

/-- Reads on inside a literal: what it says up to its closing quote, and what follows the quote. -/
def readQuoted : List Char → Option (List Char × List Char)
  | [] => none
  | '"' :: rest => some ([], rest)
  | '\x60' :: c :: rest => (readQuoted rest).map fun r => (c :: r.1, r.2)
  | c :: rest => (readQuoted rest).map fun r => (c :: r.1, r.2)

/-- Reads a literal: what it says, and what follows it. -/
def readLiteral : List Char → Option (List Char × List Char)
  | '"' :: rest => readQuoted rest
  | _ => none

/-- The text is a list of literals with commas between them, which read as these values. -/
inductive ReadsAs : List Char → List (List Char) → Prop
  | last (cs value : List Char) (read : readLiteral cs = some (value, [])) : ReadsAs cs [value]
  | comma (cs value rest : List Char) (values : List (List Char))
      (read : readLiteral cs = some (value, ',' :: rest))
      (tail : ReadsAs (rest.dropWhile isBlank) values) : ReadsAs cs (value :: values)

/-- The characters that stand for themselves in a literal. -/
def isPlain (c : Char) : Bool := c != '"' && c != '\x60'

theorem isPlain_iff {c : Char} : isPlain c ↔ c ≠ '"' ∧ c ≠ '\x60' := by simp [isPlain]

theorem forall_isPlain_iff (cs : List Char) :
    (∀ c ∈ cs, isPlain c) ↔ '\x60' ∉ cs ∧ '"' ∉ cs := by
  simp only [isPlain_iff]
  grind

/-! ### Literals that read back -/

theorem readQuoted_cons {c : Char} (h : isPlain c) (rest : List Char) :
    readQuoted (c :: rest) = (readQuoted rest).map fun r => (c :: r.1, r.2) := by
  obtain ⟨hquote, htick⟩ := isPlain_iff.mp h
  rw [readQuoted.eq_4 _ _ hquote fun _ _ heq _ => htick heq]

theorem readQuoted_append {cs : List Char} (h : ∀ c ∈ cs, isPlain c) (rest : List Char) :
    readQuoted (cs ++ rest) = (readQuoted rest).map fun r => (cs ++ r.1, r.2) := by
  induction cs with
  | nil => simp
  | cons c cs ih =>
    rw [List.cons_append, readQuoted_cons (h c List.mem_cons_self),
      ih fun d hd => h d (List.mem_cons_of_mem _ hd), Option.map_map]
    rfl

/-- A plain text reads as it stands. -/
theorem readQuoted_plain {cs : List Char} (h : ∀ c ∈ cs, isPlain c) (rest : List Char) :
    readQuoted (cs ++ '"' :: rest) = some (cs, rest) := by
  rw [readQuoted_append h, readQuoted]
  simp

/-- The text with a backtick before each quote. -/
def escaped (cs : List Char) : List Char :=
  cs.flatMap fun c => if c = '"' then ['\x60', '"'] else [c]

/-- A text without backticks reads back from its escaped form. -/
theorem readQuoted_escaped {cs : List Char} (h : '\x60' ∉ cs) (rest : List Char) :
    readQuoted (escaped cs ++ '"' :: rest) = some (cs, rest) := by
  induction cs with
  | nil => rfl
  | cons c cs ih =>
    rw [List.mem_cons, not_or] at h
    have htail := ih h.2
    rw [escaped, List.flatMap_cons, List.append_assoc, ← escaped]
    by_cases hquote : c = '"'
    · subst hquote
      rw [if_pos rfl, List.cons_append, List.singleton_append, readQuoted, htail]
      rfl
    · rw [if_neg hquote, List.singleton_append,
        readQuoted_cons (isPlain_iff.mpr ⟨hquote, Ne.symm h.1⟩), htail]
      rfl

theorem length_escaped (cs : List Char) : (escaped cs).length = cs.length + cs.count '"' := by
  induction cs with
  | nil => rfl
  | cons c cs ih =>
    rw [escaped, List.flatMap_cons, List.length_append, ← escaped, ih, List.count_cons,
      List.length_cons]
    by_cases hquote : c = '"'
    · simp only [hquote, if_true, List.length_cons, List.length_nil, beq_self_eq_true]
      omega
    · simp only [if_neg hquote, List.length_singleton, beq_iff_eq]
      omega

/-! ### What reading loses -/

/-- A backtick that is the last character closes nothing. -/
theorem ne_tick_of_readQuoted {c : Char} {rest : List Char} {r : List Char × List Char}
    (hpair : ∀ d tail, c = '\x60' → rest = d :: tail → False) (h : readQuoted rest = some r) :
    c ≠ '\x60' := by
  rintro rfl
  cases rest with
  | nil => simp [readQuoted] at h
  | cons d tail => exact hpair d tail rfl rfl

/-- A quote or a backtick takes two characters to write. -/
theorem counts_of_readQuoted {cs value rest : List Char}
    (h : readQuoted cs = some (value, rest)) :
    value.length + value.count '"' + value.count '\x60' + rest.length < cs.length := by
  fun_induction readQuoted cs generalizing value rest with
  | case1 => cases h
  | case2 rest' =>
    cases h
    simp
  | case3 d rest' ih =>
    obtain ⟨⟨value', _⟩, hread, heq⟩ := Option.map_eq_some_iff.mp h
    cases heq
    have hrest := ih hread
    -- No character is a quote and a backtick at once.
    have hone : [d].count '"' + [d].count '\x60' ≤ 1 := by
      by_cases hquote : d = '"'
      · simp [hquote]
      · have hzero : [d].count '"' = 0 := List.count_eq_zero.mpr (by simpa using Ne.symm hquote)
        rw [hzero, Nat.zero_add]
        exact List.count_le_length
    rw [← List.singleton_append, List.count_append, List.count_append]
    simp only [List.length_cons, List.length_append, List.length_nil] at hrest ⊢
    omega
  | case4 c rest' hquote hpair ih =>
    obtain ⟨⟨value', _⟩, hread, heq⟩ := Option.map_eq_some_iff.mp h
    cases heq
    have htick := ne_tick_of_readQuoted hpair hread
    have hrest := ih hread
    simp only [List.count_cons, List.length_cons, beq_iff_eq, if_neg hquote, if_neg htick]
      at hrest ⊢
    omega

/-- How many backticks a text begins with. -/
def ticks (cs : List Char) : Nat := (cs.takeWhile (· == '\x60')).length

theorem ticks_cons_tick (cs : List Char) : ticks ('\x60' :: cs) = ticks cs + 1 := by simp [ticks]

theorem ticks_cons_of_ne {c : Char} (h : c ≠ '\x60') (cs : List Char) : ticks (c :: cs) = 0 := by
  simp [ticks, h]

theorem ticks_append_quote (cs rest : List Char) : ticks (cs ++ '"' :: rest) = ticks cs := by
  induction cs with
  | nil => exact ticks_cons_of_ne (by decide) rest
  | cons c cs ih =>
    by_cases htick : c = '\x60'
    · rw [htick, List.cons_append, ticks_cons_tick, ticks_cons_tick, ih]
    · rw [List.cons_append, ticks_cons_of_ne htick, ticks_cons_of_ne htick]

/-- Of backticks in a row every second one is left. -/
theorem ticks_of_readQuoted {cs value rest : List Char} (h : readQuoted cs = some (value, rest)) :
    2 * ticks value ≤ ticks cs := by
  fun_induction readQuoted cs generalizing value rest with
  | case1 => cases h
  | case2 rest' =>
    cases h
    exact Nat.zero_le _
  | case3 d rest' ih =>
    obtain ⟨⟨value', _⟩, hread, heq⟩ := Option.map_eq_some_iff.mp h
    cases heq
    have hrest := ih hread
    by_cases htick : d = '\x60'
    · rw [htick, ticks_cons_tick, ticks_cons_tick, ticks_cons_tick]
      dsimp only
      omega
    · rw [ticks_cons_of_ne htick]
      exact Nat.zero_le _
  | case4 c rest' hquote hpair ih =>
    obtain ⟨⟨value', _⟩, hread, heq⟩ := Option.map_eq_some_iff.mp h
    cases heq
    have htick := ne_tick_of_readQuoted hpair hread
    rw [ticks_cons_of_ne htick]
    exact Nat.zero_le _

/-- **A text that reads as it stands is plain**, whatever follows its closing quote: the first
character that is not plain is lost. -/
theorem isPlain_of_readQuoted {cs rest rest' : List Char}
    (h : readQuoted (cs ++ '"' :: rest) = some (cs, rest')) : ∀ c ∈ cs, isPlain c := by
  cases hback : cs.dropWhile isPlain with
  | nil => exact List.dropWhile_eq_nil_iff.mp hback
  | cons d back =>
    exfalso
    have hfront : ∀ c ∈ cs.takeWhile isPlain, isPlain c := fun c hc => List.mem_takeWhile_imp hc
    have hcs : cs.takeWhile isPlain ++ d :: back = cs := by
      rw [← hback, List.takeWhile_append_dropWhile]
    have hd : isPlain d = false := by
      have hhead := List.head?_dropWhile_not isPlain cs
      simpa [hback] using hhead
    rw [← hcs, List.append_assoc, readQuoted_append hfront, Option.map_eq_some_iff] at h
    obtain ⟨⟨value, _⟩, hread, heq⟩ := h
    obtain ⟨hvalue, rfl⟩ := Prod.mk.inj heq
    obtain rfl := List.append_cancel_left hvalue
    rw [isPlain, Bool.and_eq_false_iff, bne_eq_false_iff_eq, bne_eq_false_iff_eq] at hd
    rcases hd with rfl | rfl
    · simp [readQuoted] at hread
    · have hticks := ticks_of_readQuoted hread
      rw [ticks_append_quote, ticks_cons_tick] at hticks
      omega

/-! ### The three ways of writing -/

/-- The escaped form reads back just where the text has no backtick. -/
theorem readLiteral_escaped_iff (cs : List Char) :
    readLiteral ('"' :: (escaped cs ++ ['"'])) = some (cs, []) ↔ '\x60' ∉ cs := by
  refine ⟨fun hread => ?_, fun hticks => readQuoted_escaped hticks []⟩
  have hcounts := counts_of_readQuoted hread
  rw [List.length_append, length_escaped, List.length_singleton, List.length_nil] at hcounts
  exact List.count_eq_zero.mp (by omega)

/-- The text as it stands reads back just where it is plain. -/
theorem readLiteral_plain_iff (cs : List Char) :
    readLiteral ('"' :: (cs ++ ['"'])) = some (cs, []) ↔ ∀ c ∈ cs, isPlain c :=
  ⟨fun hread => isPlain_of_readQuoted hread, fun hplain => readQuoted_plain hplain []⟩

/-- Texts between quotes, with a comma and a blank between them. -/
def listed (items : List (List Char)) : List Char :=
  [',', ' '].intercalate (items.map fun item => '"' :: (item ++ ['"']))

theorem listed_cons_cons (item second : List Char) (items : List (List Char)) :
    listed (item :: second :: items)
      = '"' :: (item ++ '"' :: ',' :: ' ' :: listed (second :: items)) := by
  simp [listed, List.intercalate]

theorem dropWhile_listed (item : List Char) (items : List (List Char)) :
    (' ' :: listed (item :: items)).dropWhile isBlank = listed (item :: items) := by
  have hhead : ∃ rest, listed (item :: items) = '"' :: rest := by
    cases items with
    | nil => exact ⟨item ++ ['"'], by simp [listed, List.intercalate]⟩
    | cons second items => exact ⟨_, listed_cons_cons item second items⟩
  obtain ⟨rest, hrest⟩ := hhead
  rw [hrest, List.dropWhile_cons_of_pos (by decide), List.dropWhile_cons_of_neg (by decide)]

/-- **A list reads back just where every item is plain.** -/
theorem readsAs_listed_iff (item : List Char) (items : List (List Char)) :
    ReadsAs (listed (item :: items)) (item :: items)
      ↔ ∀ text ∈ item :: items, ∀ c ∈ text, isPlain c := by
  induction items generalizing item with
  | nil =>
    have hone : listed [item] = '"' :: (item ++ ['"']) := by simp [listed, List.intercalate]
    rw [List.forall_mem_singleton, hone, ← readLiteral_plain_iff]
    refine ⟨fun h => ?_, .last _ _⟩
    cases h with
    | last _ _ read => exact read
    | comma _ _ _ _ _ tail => cases tail
  | cons second items ih =>
    rw [List.forall_mem_cons, ← ih second, listed_cons_cons]
    constructor
    · intro h
      cases h with
      | comma _ _ rest _ read tail =>
        have hplain : ∀ c ∈ item, isPlain c := isPlain_of_readQuoted read
        have heq := read.symm.trans (readQuoted_plain hplain _)
        simp only [Option.some.injEq, Prod.mk.injEq, List.cons.injEq, true_and] at heq
        rw [heq, dropWhile_listed] at tail
        exact ⟨hplain, tail⟩
    · rintro ⟨hplain, htail⟩
      exact .comma _ _ _ _ (readQuoted_plain hplain _)
        ((dropWhile_listed second items).symm ▸ htail)

/-! ### The items of a value -/

/-- Cutting loses nothing but the marks. -/
theorem exists_mem_splitOn_iff {mark c : Char} (hc : c ≠ mark) (cs : List Char) :
    (∃ field ∈ cs.splitOn mark, c ∈ field) ↔ c ∈ cs := by
  induction cs with
  | nil => simp
  | cons d rest ih =>
    by_cases hmark : d = mark
    · simp [List.splitOn_cons_eq_if_modifyHead, hmark, hc, ih]
    · obtain ⟨field, fields, hsplit⟩ := List.exists_cons_of_ne_nil (List.splitOn_ne_nil mark rest)
      rw [List.mem_cons, ← ih, List.splitOn_cons_eq_if_modifyHead, hsplit]
      simp [hmark, or_assoc]

end Text

namespace Parameter

/-- The argument is the flag and one literal, which ends with it and reads as the value. -/
def GivesLiteral (p : Parameter) (argument : String) (value : List Char) : Prop :=
  ∃ literal : String, argument = "-" ++ p.name ++ " " ++ literal
    ∧ Text.readLiteral literal.toList = some (value, [])

/-- The argument is the flag and a list of literals, which read as the values. -/
def GivesList (p : Parameter) (argument : String) (values : List (List Char)) : Prop :=
  ∃ list : String, argument = "-" ++ p.name ++ " @(" ++ list ++ ")"
    ∧ Text.ReadsAs list.toList values

theorem givesLiteral_quoted_iff (p : Parameter) (text : String) (value : List Char) :
    p.GivesLiteral ("-" ++ p.name ++ " " ++ quoted text) value
      ↔ Text.readLiteral ('"' :: (text.toList ++ ['"'])) = some (value, []) := by
  have hquoted : (quoted text).toList = '"' :: (text.toList ++ ['"']) := by simp [quoted]
  rw [← hquoted]
  refine ⟨fun ⟨literal, heq, hread⟩ => ?_, fun hread => ⟨_, rfl, hread⟩⟩
  rwa [(String.append_right_inj _).mp heq]

/-- Escaped values lose their backticks and nothing else. -/
theorem givesLiteral_escapeQuotes_iff (p : Parameter) (value : String) :
    p.GivesLiteral ("-" ++ p.name ++ " " ++ quoted (escapeQuotes value)) value.toList
      ↔ '\x60' ∉ value.toList := by
  rw [givesLiteral_quoted_iff, ← Text.readLiteral_escaped_iff, escapeQuotes, String.toList_ofList,
    Text.escaped]

theorem givesLiteral_plain_iff (p : Parameter) (value : String) :
    p.GivesLiteral ("-" ++ p.name ++ " " ++ quoted value) value.toList
      ↔ '\x60' ∉ value.toList ∧ '"' ∉ value.toList := by
  rw [givesLiteral_quoted_iff, Text.readLiteral_plain_iff, Text.forall_isPlain_iff]

/-- The characters of the items are those of the value, apart from commas and blanks. -/
theorem exists_mem_items_iff {c : Char} (hcomma : c ≠ ',') (hblank : Text.isBlank c = false)
    (value : List Char) :
    (∃ item ∈ (value.splitOn ',').map Text.trimChars, c ∈ item) ↔ c ∈ value := by
  rw [← Text.exists_mem_splitOn_iff hcomma]
  simp [Text.mem_trimChars_iff hblank]

theorem isPlain_items_iff (value : List Char) :
    (∀ item ∈ (value.splitOn ',').map Text.trimChars, ∀ c ∈ item, Text.isPlain c)
      ↔ '\x60' ∉ value ∧ '"' ∉ value := by
  have htick := exists_mem_items_iff (c := '\x60') (by decide) (by decide) value
  have hquote := exists_mem_items_iff (c := '"') (by decide) (by decide) value
  simp only [Text.forall_isPlain_iff, ← htick, ← hquote, forall_and, not_exists, not_and]

theorem toList_intercalate_quoted (texts : List String) :
    (", ".intercalate (texts.map quoted)).toList = Text.listed (texts.map String.toList) := by
  rw [String.toList_intercalate, Text.listed, List.map_map, List.map_map]
  congr 2
  funext text
  simp [quoted]

theorem givesList_items_iff (p : Parameter) (value : String) :
    p.GivesList ("-" ++ p.name ++ " @(" ++ ", ".intercalate ((items value).map quoted) ++ ")")
        ((value.toList.splitOn ',').map Text.trimChars)
      ↔ '\x60' ∉ value.toList ∧ '"' ∉ value.toList := by
  have hitems : (items value).map String.toList =
      (value.toList.splitOn ',').map Text.trimChars := by simp [items]
  rw [← isPlain_items_iff]
  have hne : (value.toList.splitOn ',').map Text.trimChars ≠ [] := by
    simp [List.splitOn_ne_nil]
  obtain ⟨item, rest, hcons⟩ := List.exists_cons_of_ne_nil hne
  rw [hcons, ← Text.readsAs_listed_iff, ← hcons, ← hitems, ← toList_intercalate_quoted]
  refine ⟨fun ⟨list, heq, hread⟩ => ?_, fun hread => ⟨_, rfl, hread⟩⟩
  rwa [(String.append_right_inj _).mp ((String.append_left_inj _).mp heq)]

end Parameter

/-- **Which arguments read back as the value of their parameter.**  A text or a path does just where
the value holds no backtick; a choice, a credential or a list of texts just where it holds neither a
backtick nor a quote. -/
theorem argument_reads_back_iff (p : Parameter) (h : Text.isBlankText p.effectiveValue = false) :
    (p.type = .string ∨ p.type = .path → ∃ argument, p.argument? = some argument
      ∧ (p.GivesLiteral argument p.effectiveValue.toList ↔ '\x60' ∉ p.effectiveValue.toList))
    ∧ (p.type = .choice ∨ p.type = .credential → ∃ argument, p.argument? = some argument
      ∧ (p.GivesLiteral argument p.effectiveValue.toList
        ↔ '\x60' ∉ p.effectiveValue.toList ∧ '"' ∉ p.effectiveValue.toList))
    ∧ (p.type = .stringArray → ∃ argument, p.argument? = some argument
      ∧ (p.GivesList argument ((p.effectiveValue.toList.splitOn ',').map Text.trimChars)
        ↔ '\x60' ∉ p.effectiveValue.toList ∧ '"' ∉ p.effectiveValue.toList)) := by
  have hne : p.effectiveValue ≠ "" := by
    intro hempty
    rw [hempty] at h
    cases h
  rw [Parameter.argument?, if_neg hne, Parameter.argumentFor]
  refine ⟨?_, ?_, fun htype => ?_⟩
  · rintro (htype | htype)
    all_goals
      rw [htype]
      exact ⟨_, rfl, p.givesLiteral_escapeQuotes_iff _⟩
  · rintro (htype | htype)
    all_goals
      rw [htype]
      exact ⟨_, rfl, p.givesLiteral_plain_iff _⟩
  · rw [htype]
    exact ⟨_, rfl, p.givesList_items_iff _⟩

/-- A text with quotes, a plain choice and a plain list read back. -/
theorem argument_reads_back_iff_samples :
    (∃ argument, ({ name := "Text", value := " say \"hi\" " } : Parameter).argument? = some argument
      ∧ ({ name := "Text" } : Parameter).GivesLiteral argument "say \"hi\"".toList)
    ∧ (∃ argument, ({ name := "Level", type := .choice, defaultValue := "low" } : Parameter).argument?
        = some argument
      ∧ ({ name := "Level" } : Parameter).GivesLiteral argument "low".toList)
    ∧ (∃ argument, ({ name := "Hosts", type := .stringArray, value := "a, b,,c" } : Parameter).argument?
        = some argument
      ∧ ({ name := "Hosts" } : Parameter).GivesList argument
        ["a".toList, "b".toList, [], "c".toList]) := by
  refine ⟨?_, ?_, ?_⟩
  · obtain ⟨argument, hargument, hreads⟩ :=
      (argument_reads_back_iff { name := "Text", value := " say \"hi\" " } (by decide +kernel)).1
        (.inl rfl)
    exact ⟨argument, hargument, hreads.mpr (by decide +kernel)⟩
  · obtain ⟨argument, hargument, hreads⟩ :=
      (argument_reads_back_iff { name := "Level", type := .choice, defaultValue := "low" }
        (by decide +kernel)).2.1 (.inl rfl)
    exact ⟨argument, hargument, hreads.mpr (by decide +kernel)⟩
  · obtain ⟨argument, hargument, hreads⟩ :=
      (argument_reads_back_iff { name := "Hosts", type := .stringArray, value := "a, b,,c" }
        (by decide +kernel)).2.2 rfl
    exact ⟨argument, hargument, hreads.mpr (by decide +kernel)⟩

/-- A backtick of the value takes the escape away from the quote after it: the literal ends there,
and the rest of the value is left outside. -/
theorem value_cut_at_backtick :
    ({ name := "Text", value := "x\x60\" y" } : Parameter).argument? = some "-Text \"x\x60\x60\" y\""
    ∧ Text.readLiteral "\"x\x60\x60\" y\"".toList = some ("x\x60".toList, " y\"".toList)
    ∧ ¬ ({ name := "Text" } : Parameter).GivesLiteral "-Text \"x\x60\x60\" y\""
      "x\x60\" y".toList := by
  refine ⟨by decide +kernel, by decide +kernel, fun hgives => ?_⟩
  have htick := (Parameter.givesLiteral_escapeQuotes_iff { name := "Text" } "x\x60\" y").mp hgives
  exact htick (by decide +kernel)

end BlockScript
