import FiberStacks.Proofs.Journal.Texts

/-!
# Objects in JSON

Texts that are read back are put together into objects that are read back. A piece of a text is cut
into the same tokens wherever it stands, as long as what follows it does not prolong a word, and the
tokens of a value stand for it whatever is open around them.
-/

namespace FiberStacks.Json

/-! ### Tokens -/

theorem ended?_nil : ended? [] = some [] := rfl

theorem inside_append {l : List Char} (hl : ∀ c ∈ l, c ≠ '"' ∧ c ≠ '\\') (string cs : List Char) :
    inside string (l ++ cs) = inside (string ++ l) cs := by
  induction l generalizing string with
  | nil => rw [List.nil_append, List.append_nil]
  | cons c l ih =>
    obtain ⟨hquote, hbackslash⟩ := hl c List.mem_cons_self
    rw [List.cons_append, inside, ih fun d hd => hl d (List.mem_cons_of_mem c hd),
      List.append_assoc, List.singleton_append]
    · exact hquote
    · exact fun _ _ heq => absurd heq hbackslash

/-- What a character is written as does not end the string that it is in. -/
theorem inside_escapeChar (c : Char) (string cs : List Char) :
    inside string (escapeChar c ++ cs) = inside (string ++ escapeChar c) cs := by
  rcases escapeChar_cases c with ⟨letter, -, heq⟩ | ⟨-, heq⟩ | ⟨hquote, hbackslash, -, heq⟩
  · rw [heq]
    rfl
  · have hplain : ∀ d ∈ fourDigits c.toNat, d ≠ '"' ∧ d ≠ '\\' := by
      intro d hd
      obtain ⟨k, hk, rfl⟩ := mem_fourDigits hd
      exact ⟨(digitChar_plain k hk).1, (digitChar_plain k hk).2.1⟩
    rw [heq, List.cons_append, List.cons_append, inside, inside_append hplain, List.append_assoc]
    rfl
  · rw [heq]
    refine inside_append (fun d hd => ?_) string cs
    rw [List.mem_singleton.mp hd]
    exact ⟨hquote, hbackslash⟩

theorem inside_escape (text string cs : List Char) :
    inside string (text.flatMap escapeChar ++ cs) =
      inside (string ++ text.flatMap escapeChar) cs := by
  induction text generalizing string with
  | nil => rw [List.flatMap_nil, List.nil_append, List.append_nil]
  | cons c text ih =>
    rw [List.flatMap_cons, List.append_assoc, inside_escapeChar, ih, List.append_assoc]

theorem toList_quote (text : String) :
    (quote text).toList = '"' :: (text.toList.flatMap escapeChar ++ ['"']) := by
  simp [quote, escape]

/-- A quoted text is cut off as one token, whatever follows it. -/
theorem outside_quote (text : String) (rest : List Char) :
    outside [] ((quote text).toList ++ rest) =
      (outside [] rest).map (.value (.string text) :: ·) := by
  rw [toList_quote, List.cons_append, List.append_assoc, outside, if_pos rfl, inside_escape,
    List.nil_append, List.singleton_append, inside, string?_escape]
  change ((outside [] rest).map (.value (.string text) :: ·)).map ([] ++ ·) = _
  simp only [Option.map_map, List.nil_append]
  rfl

/-- A word ends before such a text. -/
def Delimited (cs : List Char) : Prop := ∀ c ∈ cs.head?, (mark? c).isSome

theorem delimited_nil : Delimited [] := nofun

theorem delimited_cons {c : Char} {marks : List Token} (hc : mark? c = some marks)
    (cs : List Char) : Delimited (c :: cs) := by
  intro d hd
  rw [← Option.some.inj hd, hc]
  rfl

/-- The text is cut into the tokens if the text that follows it does not prolong a word. -/
def CutsInto (cs : List Char) (ts : List Token) : Prop :=
  ∀ rest, Delimited rest → outside [] (cs ++ rest) = (outside [] rest).map (ts ++ ·)

/-- A piece is cut off in front of a text that is cut itself. -/
theorem CutsInto.prepend {cs' : List Char} {ts' : List Token} (h : CutsInto cs' ts')
    (cs : List Char) (ts : List Token) (hfirst : ∀ rest, Delimited rest →
      outside [] (cs ++ (cs' ++ rest)) = (outside [] (cs' ++ rest)).map (ts ++ ·)) :
    CutsInto (cs ++ cs') (ts ++ ts') := by
  intro rest hrest
  rw [List.append_assoc, hfirst rest hrest, h rest hrest, Option.map_map]
  refine congrArg (fun f => (outside [] rest).map f) ?_
  funext more
  exact (List.append_assoc ts ts' more).symm

theorem CutsInto.cons {c : Char} {t : Token} {cs : List Char} {ts : List Token}
    (hc : mark? c = some [t]) (h : CutsInto cs ts) : CutsInto (c :: cs) (t :: ts) := by
  have hquote : c ≠ '"' := by
    rintro rfl
    cases hc
  have hfirst : ∀ rest, outside [] (c :: rest) = (outside [] rest).map ([t] ++ ·) := by
    intro rest
    rw [outside, if_neg hquote, hc]
    rfl
  exact h.prepend [c] [t] fun rest _ => hfirst (cs ++ rest)

theorem cutsInto_nil : CutsInto [] [] := fun rest _ => by simp

theorem outside_append {l : List Char} (hl : ∀ c ∈ l, c ≠ '"' ∧ mark? c = none)
    (word cs : List Char) : outside word (l ++ cs) = outside (word ++ l) cs := by
  induction l generalizing word with
  | nil => rw [List.nil_append, List.append_nil]
  | cons c l ih =>
    obtain ⟨hquote, hmark⟩ := hl c List.mem_cons_self
    rw [List.cons_append, outside, if_neg hquote, hmark]
    simp only
    rw [ih fun d hd => hl d (List.mem_cons_of_mem c hd), List.append_assoc, List.singleton_append]

/-- A word is cut off as one token where something ends it. -/
theorem cutsInto_word {word : List Char} {v : Value} (hne : word ≠ [])
    (hword : ∀ c ∈ word, c ≠ '"' ∧ mark? c = none) (hv : scalar? word = some v) :
    CutsInto word [.value v] := by
  intro rest hrest
  have hended : ended? word = some [.value v] := by
    rw [ended?, if_neg hne, hv, Option.map_some]
  rw [outside_append hword, List.nil_append]
  cases rest with
  | nil => simp [outside, hended, ended?_nil]
  | cons c cs =>
    obtain ⟨marks, hmark⟩ := Option.isSome_iff_exists.mp (hrest c rfl)
    have hquote : c ≠ '"' := by
      rintro rfl
      cases hmark
    simp [outside, hquote, hmark, hended, ended?_nil, Function.comp_def]

/-! ### Values -/

/-- The tokens stand for the value, whatever is open around them. -/
def StandFor (ts : List Token) (v : Value) : Prop :=
  ∀ stack rest, readValue stack (ts ++ rest) = readAfter stack v rest

theorem standFor_value (v : Value) : StandFor [.value v] v := fun _ _ => rfl

/-- A text without control characters that is read as the value, whatever is written around it. -/
structure Writes (text : String) (v : Value) : Prop where
  clean : ∀ c ∈ text.toList, isControl c = false
  tokens : ∃ ts, CutsInto text.toList ts ∧ StandFor ts v

theorem clean_quote (text : String) : ∀ c ∈ (quote text).toList, isControl c = false := by
  intro c hc
  rw [toList_quote] at hc
  rcases List.mem_cons.mp hc with rfl | hc
  · rfl
  rcases List.mem_append.mp hc with hc | hc
  · obtain ⟨d, -, hd⟩ := List.mem_flatMap.mp hc
    exact isControl_of_mem_escapeChar hd
  · rw [List.mem_singleton.mp hc]
    rfl

theorem writes_quote (text : String) : Writes (quote text) (.string text) where
  clean := clean_quote text
  tokens := ⟨_, fun rest _ => outside_quote text rest, standFor_value _⟩

/-- Whether a character may stand in a word. -/
def isWordChar (c : Char) : Bool := c ≠ '"' && (mark? c).isNone && !isControl c

theorem isWordChar_of_isDigit {c : Char} (h : c.isDigit = true) : isWordChar c = true := by
  have hdigits : ∀ k < 58, 48 ≤ k → isWordChar (Char.ofNat k) = true := by decide
  have hrange : 48 ≤ c.toNat ∧ c.toNat ≤ 57 := by
    simpa [Char.isDigit, UInt32.le_iff_toNat_le] using h
  rw [← Char.ofNat_toNat c]
  exact hdigits c.toNat (by omega) hrange.1

theorem writes_word {text : String} {v : Value} (hne : text.toList ≠ [])
    (hword : ∀ c ∈ text.toList, isWordChar c = true) (hv : scalar? text.toList = some v) :
    Writes text v := by
  simp only [isWordChar, Bool.and_eq_true, decide_eq_true_eq, Bool.not_eq_true',
    Option.isNone_iff_eq_none] at hword
  exact ⟨fun c hc => (hword c hc).2, _, cutsInto_word hne (fun c hc => (hword c hc).1) hv,
    standFor_value v⟩

theorem writes_int (n : Int) : Writes (toString n) (.number n) := by
  rw [Int.toString_eq_repr]
  refine writes_word ?_ (fun c hc => ?_) (scalar?_of_number? (number?_repr n))
  · cases n with
    | ofNat n =>
      rw [toList_repr_ofNat]
      exact Nat.toDigits_ne_nil
    | negSucc n =>
      rw [toList_repr_negSucc]
      exact List.cons_ne_nil _ _
  · rcases mem_repr hc with rfl | hdigit
    · rfl
    · exact isWordChar_of_isDigit hdigit

theorem writes_nat (n : Nat) : Writes (toString n) (.number n) := writes_int n

theorem writes_boolean (b : Bool) : Writes (toString b) (.boolean b) := by
  cases b
  · exact writes_word (by decide) (List.all_eq_true.mp rfl) rfl
  · exact writes_word (by decide) (List.all_eq_true.mp rfl) rfl

/-- A member of an object: its key, the text of its value, and the value. -/
structure Member where
  key : String
  text : String
  value : Value

namespace Member

def write (m : Member) : String := quote m.key ++ ":" ++ m.text

def document (m : Member) : String × Value := (m.key, m.value)

end Member

def writeObject (members : List Member) : String :=
  "\x7b" ++ ",".intercalate (members.map Member.write) ++ "\x7d"

/-- The texts of the members but for the first, each behind a comma. -/
def moreMembers (members : List Member) : List Char :=
  members.flatMap fun m => ',' :: m.write.toList

theorem toList_intercalate_cons (m : Member) (members : List Member) :
    (",".intercalate ((m :: members).map Member.write)).toList =
      m.write.toList ++ moreMembers members := by
  induction members generalizing m with
  | nil => simp [moreMembers]
  | cons m' members ih =>
    rw [List.map_cons, String.intercalate_cons_of_ne_nil (by simp), String.toList_append,
      String.toList_append, ih]
    simp [moreMembers]

theorem toList_writeObject_cons (m : Member) (members : List Member) :
    (writeObject (m :: members)).toList =
      '\x7b' :: (m.write.toList ++ (moreMembers members ++ ['\x7d'])) := by
  rw [writeObject, String.toList_append, String.toList_append, toList_intercalate_cons]
  simp

theorem exists_tokens_member {m : Member} (h : Writes m.text m.value) :
    ∃ ts, CutsInto m.write.toList (.value (.string m.key) :: .colon :: ts) ∧
      StandFor ts m.value := by
  obtain ⟨ts, hcuts, hstand⟩ := h.tokens
  refine ⟨ts, ?_, hstand⟩
  have hcolon : CutsInto (':' :: m.text.toList) (.colon :: ts) := hcuts.cons rfl
  have hmember := hcolon.prepend (quote m.key).toList [.value (.string m.key)]
    fun rest _ => outside_quote m.key _
  have hwrite : m.write.toList = (quote m.key).toList ++ ':' :: m.text.toList := by
    simp [Member.write]
  rw [hwrite]
  exact hmember

theorem delimited_moreMembers (members : List Member) (rest : List Char) :
    Delimited (moreMembers members ++ ['\x7d'] ++ rest) := by
  cases members with
  | nil => exact delimited_cons rfl _
  | cons m members => exact delimited_cons rfl _

theorem exists_tokens_moreMembers {members : List Member}
    (h : ∀ m ∈ members, Writes m.text m.value) :
    ∃ ts, CutsInto (moreMembers members ++ ['\x7d']) ts ∧
      ∀ stack done key v rest, readAfter (.object done key :: stack) v (ts ++ rest) =
        readAfter stack (.object (done ++ (key, v) :: members.map Member.document)) rest := by
  -- `done` is what the reader has of the object so far, and it has to grow with each member.
  induction members with
  | nil => exact ⟨[.closeObject], cutsInto_nil.cons rfl, fun _ _ _ _ _ => rfl⟩
  | cons m members ih =>
    obtain ⟨ts, hcuts, hstand⟩ := exists_tokens_member (h m List.mem_cons_self)
    obtain ⟨more, hmore, hafter⟩ := ih fun m' hm' => h m' (List.mem_cons_of_mem m hm')
    have hrest := hmore.prepend _ _ fun rest _ => hcuts _ (delimited_moreMembers members rest)
    refine ⟨.comma :: .value (.string m.key) :: .colon :: (ts ++ more), ?_, ?_⟩
    · have htext : moreMembers (m :: members) ++ ['\x7d'] =
          ',' :: (m.write.toList ++ (moreMembers members ++ ['\x7d'])) := by
        simp [moreMembers]
      rw [htext]
      exact hrest.cons rfl
    · intro stack done key v rest
      simp only [List.cons_append, List.append_assoc, readAfter]
      rw [hstand, hafter]
      simp [Member.document]

theorem clean_member {m : Member} (h : Writes m.text m.value) :
    ∀ c ∈ m.write.toList, isControl c = false := by
  intro c hc
  simp only [Member.write, String.toList_append, List.mem_append] at hc
  rcases hc with (hc | hc) | hc
  · exact clean_quote m.key c hc
  · rw [List.mem_singleton.mp hc]
    rfl
  · exact h.clean c hc

theorem clean_writeObject {members : List Member} (h : ∀ m ∈ members, Writes m.text m.value) :
    ∀ c ∈ (writeObject members).toList, isControl c = false := by
  intro c hc
  cases members with
  | nil =>
    have hbraces : (writeObject []).toList = ['\x7b', '\x7d'] := by decide
    rw [hbraces] at hc
    rcases List.mem_cons.mp hc with rfl | hc
    · rfl
    · rw [List.mem_singleton.mp hc]
      rfl
  | cons m members =>
    rw [toList_writeObject_cons] at hc
    rcases List.mem_cons.mp hc with rfl | hc
    · rfl
    rcases List.mem_append.mp hc with hc | hc
    · exact clean_member (h m List.mem_cons_self) c hc
    rcases List.mem_append.mp hc with hc | hc
    · obtain ⟨m', hm', hc⟩ := List.mem_flatMap.mp hc
      rcases List.mem_cons.mp hc with rfl | hc
      · rfl
      · exact clean_member (h m' (List.mem_cons_of_mem m hm')) c hc
    · rw [List.mem_singleton.mp hc]
      rfl

theorem exists_tokens_object {members : List Member} (h : ∀ m ∈ members, Writes m.text m.value) :
    ∃ ts, CutsInto (writeObject members).toList ts ∧
      StandFor ts (.object (members.map Member.document)) := by
  cases members with
  | nil => exact ⟨[.openObject, .closeObject], (cutsInto_nil.cons rfl).cons rfl, fun _ _ => rfl⟩
  | cons m members =>
    obtain ⟨ts, hcuts, hstand⟩ := exists_tokens_member (h m List.mem_cons_self)
    obtain ⟨more, hmore, hafter⟩ :=
      exists_tokens_moreMembers fun m' hm' => h m' (List.mem_cons_of_mem m hm')
    have hrest := hmore.prepend _ _ fun rest _ => hcuts _ (delimited_moreMembers members rest)
    refine ⟨.openObject :: .value (.string m.key) :: .colon :: (ts ++ more), ?_, ?_⟩
    · rw [toList_writeObject_cons]
      exact hrest.cons rfl
    · intro stack rest
      simp only [List.cons_append, List.append_assoc, readValue]
      rw [hstand, hafter]
      rfl

/-- Members that can be read make an object that can be read, with the members in their order. -/
theorem writes_object {members : List Member} (h : ∀ m ∈ members, Writes m.text m.value) :
    Writes (writeObject members) (.object (members.map Member.document)) :=
  ⟨clean_writeObject h, exists_tokens_object h⟩

theorem Writes.read_eq {text : String} {v : Value} (h : Writes text v) : read text = some v := by
  obtain ⟨ts, hcuts, hstand⟩ := h.tokens
  have houtside : outside [] text.toList = some ts := by
    simpa [outside, ended?_nil] using hcuts [] delimited_nil
  have hvalue : readValue [] ts = some v := by simpa [readAfter] using hstand [] []
  rw [read, houtside]
  exact hvalue

end FiberStacks.Json
