import BlockScript.Naming.Binder
import Mathlib.Data.List.Nodup
import Mathlib.Data.List.Perm.Subperm

/-!
# Choosing a name that is new

A binder remembers the names it has given, in lower case.  Each way to choose a name ends in one
that is new: a candidate that is not used, or a name with a counter.  Different counters give
different names (`Binder.numbered_injective`), so the used names cannot take all counters that are
tried, and the search finds one (`Binder.exists_counter`).

`Naming.IsName` is the shape of names, and `Binder.Chosen` says what the choice of a name comes to
(`Binder.chosen_nameFor`).
-/

namespace BlockScript

/-! ### The shape of names -/

namespace Naming

/-- Words of ASCII letters and digits, with one underscore between each and the next. -/
inductive IsName : List Char → Prop
  | word (w : List Char) (ne : w ≠ []) (chars : ∀ c ∈ w, c.isAlphanum) : IsName w
  | join (w rest : List Char) (ne : w ≠ []) (chars : ∀ c ∈ w, c.isAlphanum) (tail : IsName rest) :
      IsName (w ++ '_' :: rest)

theorem IsName.ne_nil {l : List Char} (h : IsName l) : l ≠ [] := by
  cases h with
  | word _ ne => exact ne
  | join => simp

theorem IsName.isAlphanum_or_eq {l : List Char} (h : IsName l) {c : Char} (hc : c ∈ l) :
    c.isAlphanum ∨ c = '_' := by
  induction h with
  | word w _ chars => exact Or.inl (chars c hc)
  | join w rest _ chars _ ih =>
    rcases List.mem_append.mp hc with hc | hc
    · exact Or.inl (chars c hc)
    · rcases List.mem_cons.mp hc with rfl | hc
      · exact Or.inr rfl
      · exact ih hc

theorem IsName.append_word {l w : List Char} (h : IsName l) (ne : w ≠ [])
    (chars : ∀ c ∈ w, c.isAlphanum) : IsName (l ++ '_' :: w) := by
  induction h with
  | word v ne' chars' => exact .join v w ne' chars' (.word w ne chars)
  | join v rest ne' chars' _ ih =>
    rw [List.append_assoc, List.cons_append]
    exact .join v _ ne' chars' ih

theorem isAlphanum_toUpper {c : Char} (h : c.isAlphanum) : c.toUpper.isAlphanum := by
  delta Char.toUpper
  split
  · rename_i hlower
    simp only [UInt32.le_iff_toNat_le] at hlower
    delta Char.isAlphanum Char.isAlpha Char.isUpper
    simp only [Bool.or_eq_true, decide_eq_true_eq, ge_iff_le, UInt32.le_iff_toNat_le,
      UInt32.toNat_add]
    refine Or.inl (Or.inl ?_)
    have h1 : 'a'.val.toNat = 97 := rfl
    have h2 : 'z'.val.toNat = 122 := rfl
    have h3 : 'A'.val.toNat = 65 := rfl
    have h4 : 'Z'.val.toNat = 90 := rfl
    have h5 : ('A'.val - 'a'.val).toNat = 2 ^ 32 - 32 := rfl
    omega
  · exact h

theorem toLower_of_isDigit {c : Char} (h : c.isDigit) : c.toLower = c := by
  rw [Char.isDigit_iff_toNat] at h
  delta Char.toLower
  rw [dif_neg]
  intro hupper
  simp only [ge_iff_le, UInt32.le_iff_toNat_le] at hupper
  have h1 : 'A'.val.toNat = 65 := rfl
  have h2 : '9'.toNat = 57 := rfl
  have h3 : c.val.toNat = c.toNat := rfl
  omega

theorem isAlphanum_of_isDigit {c : Char} (h : c.isDigit) : c.isAlphanum := by
  simp [Char.isAlphanum, h]

theorem isAlphanum_capital {c d : Char} (h : d ∈ capital c) : d.isAlphanum := by
  rw [capital] at h
  split at h
  · rename_i hc
    obtain rfl := List.mem_singleton.mp h
    exact isAlphanum_toUpper hc
  · have htable : asciiCapitals.all fun x => x.2.toList.all Char.isAlphanum := by decide
    cases hlookup : asciiCapitals.lookup c with
    | none => simp [hlookup] at h
    | some text =>
      obtain ⟨l₁, l₂, heq, -⟩ := List.lookup_eq_some_iff.mp hlookup
      rw [hlookup, Option.getD_some] at h
      have htext := List.all_eq_true.mp htable (c, text) (by rw [heq]; simp)
      exact List.all_eq_true.mp htext d h

theorem isAlphanum_joinWords {first : Bool} {cs : List Char} {d : Char}
    (h : d ∈ joinWords first cs) : d.isAlphanum := by
  fun_induction joinWords first cs with
  | case1 => simp at h
  | case2 first c rest hsep ih => exact ih h
  | case3 c rest hsep ih =>
    rcases List.mem_append.mp h with h | h
    · exact isAlphanum_capital h
    · exact ih h
  | case4 first c rest hsep hfirst hchar ih =>
    rcases List.mem_cons.mp h with rfl | h
    · exact hchar
    · exact ih h
  | case5 first c rest hsep hfirst hchar ih => exact ih h

/-- An identifier is one word. -/
theorem isName_identifier (text : String) : IsName (identifier text).toList := by
  rw [identifier]
  split
  · have hword : fallback.toList.all Char.isAlphanum := by decide
    exact .word _ (by decide) (List.all_eq_true.mp hword)
  · rename_i hne
    rw [String.toList_ofList]
    exact .word _ hne fun c hc => isAlphanum_joinWords hc

end Naming

open Naming

namespace Binder

variable {b : Binder}

theorem isName_numbered {name : String} (h : IsName name.toList) (n : Nat) :
    IsName (numbered name n).toList := by
  rw [numbered, String.toList_append, String.toList_append, List.append_assoc,
    Nat.toString_eq_repr, Nat.toList_repr]
  refine h.append_word Nat.toDigits_ne_nil fun c hc => ?_
  exact isAlphanum_of_isDigit (Nat.isDigit_of_mem_toDigits (by decide) (by decide) hc)

theorem isName_of_mem_candidates {block : Block} {name : String} (h : name ∈ b.candidates block) :
    IsName name.toList := by
  obtain ⟨n, hn, rfl⟩ := List.mem_map.mp h
  simp only [List.mem_filter, List.mem_range, Bool.and_eq_true, decide_eq_true_eq] at hn
  have htext : (baseName block ++ "_" ++ String.ofList ((idChars block.id).take n)).toList =
      (baseName block).toList ++ '_' :: (idChars block.id).take n := by simp
  rw [htext]
  refine (isName_identifier _).append_word ?_ fun c hc => ?_
  · rw [ne_eq, List.take_eq_nil_iff]
    rintro (hzero | hnil)
    · omega
    · rw [hnil, List.length_nil] at hn
      omega
  · exact (List.mem_filter.mp (List.mem_of_mem_take hc)).2

/-! ### A counter is found -/

/-- Different counters give different names, whatever the case of the letters. -/
theorem numbered_injective (name : String) :
    Function.Injective fun n => foldCase (numbered name n) := by
  intro m n heq
  have hdigits : ∀ k, (Nat.toDigits 10 k).map Char.toLower = Nat.toDigits 10 k := by
    intro k
    refine (List.map_congr_left fun c hc => ?_).trans (List.map_id _)
    exact toLower_of_isDigit (Nat.isDigit_of_mem_toDigits (by decide) (by decide) hc)
  have hchars := String.ofList_inj.mp heq
  simp only [numbered, String.toList_append, List.map_append, Nat.toString_eq_repr,
    Nat.toList_repr, hdigits, List.append_cancel_left_eq] at hchars
  have hvalue := congrArg (Nat.ofDigitChars 10 · 0) hchars
  simpa only [Nat.ofDigitChars_ten_toDigits] using hvalue

/-- **The search for a counter finds one**: the counters that are tried give one name more than
there are used names. -/
theorem exists_counter (b : Binder) (name : String) :
    ∃ n, ((List.range (b.used.length + 1)).find?
      fun n => !b.isUsed (numbered name (n + 2))) = some n := by
  cases hfind : (List.range (b.used.length + 1)).find?
      fun n => !b.isUsed (numbered name (n + 2)) with
  | some n => exact ⟨n, rfl⟩
  | none =>
    let tried := (List.range (b.used.length + 1)).map fun n => foldCase (numbered name (n + 2))
    have hnodup : tried.Nodup := by
      refine List.nodup_range.map fun m n heq => ?_
      have := numbered_injective name heq
      omega
    have hsub : tried ⊆ b.used := by
      intro x hx
      obtain ⟨n, hn, rfl⟩ := List.mem_map.mp hx
      simpa [isUsed] using List.find?_eq_none.mp hfind n hn
    have hle := (hnodup.subperm hsub).length_le
    rw [List.length_map, List.length_range] at hle
    omega

theorem isUsed_freshNumber (b : Binder) (name : String) :
    b.isUsed (numbered name (b.freshNumber name)) = false := by
  obtain ⟨n, hfind⟩ := b.exists_counter name
  rw [freshNumber, hfind]
  simpa using List.find?_some hfind

/-! ### One name -/

/-- A name is chosen: it was not used before, whatever the case of its letters, it has the shape of
a name, and it is used afterwards. -/
structure Chosen (b : Binder) (r : String × Binder) : Prop where
  new : foldCase r.1 ∉ b.used
  shape : IsName r.1.toList
  used_eq : r.2.used = b.used ++ [foldCase r.1]

theorem chosen_take {name : String} (hnew : b.isUsed name = false) (hname : IsName name.toList) :
    b.Chosen (b.take name) where
  new := by simpa [isUsed, take] using hnew
  shape := hname
  used_eq := rfl

theorem chosen_takeUnique {name : String} (hname : IsName name.toList) :
    b.Chosen (b.takeUnique name) := by
  rw [takeUnique]
  split
  · exact chosen_take (b.isUsed_freshNumber name) (isName_numbered hname _)
  · rename_i hnew
    exact chosen_take (by simpa using hnew) hname

theorem chosen_synthesize (b : Binder) (block : Block) : b.Chosen (b.synthesize block) := by
  cases hfind : (b.candidates block).find? (!b.isUsed ·) with
  | some name =>
    simp only [synthesize, hfind]
    refine chosen_take ?_ (isName_of_mem_candidates (List.mem_of_find?_eq_some hfind))
    simpa using List.find?_some hfind
  | none =>
    simp only [synthesize, hfind]
    refine chosen_takeUnique ?_
    cases hlast : (b.candidates block).getLast? with
    | none => exact isName_identifier _
    | some name => exact isName_of_mem_candidates (List.mem_of_getLast? hlast)

/-- **Whatever a name is asked for, the one that is given is new.** -/
theorem chosen_nameFor (b : Binder) (members : List Block) (last : Block) :
    b.Chosen (b.nameFor members last) := by
  cases hexp : members.reverse.findSome? explicitName? with
  | none =>
    simp only [nameFor, hexp]
    exact b.chosen_synthesize last
  | some name =>
    simp only [nameFor, hexp]
    refine chosen_takeUnique ?_
    obtain ⟨block, -, hname⟩ := List.exists_of_findSome?_eq_some hexp
    by_cases hblank : Text.isBlankText block.outputVariable
    · simp [explicitName?, hblank] at hname
    · simp only [explicitName?, hblank, Bool.false_eq_true, if_false, Option.some.injEq] at hname
      exact hname ▸ isName_identifier _

end Binder

end BlockScript
