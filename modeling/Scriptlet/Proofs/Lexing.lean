import Scriptlet.Token.Lexer

/-!
# Texts that spell tokens

The text of a token can be read as that token if nothing behind it makes it longer.  Which character
would is `Token.goesOn`: a digit behind an integer, a letter behind a name or a keyword, and `=`
behind the two signs that have a longer form.  Other tokens end by themselves, and so does a string
literal, whose contents may be any characters but quotes.

`Token.Spells` holds between a text and the tokens that stand in it one behind the other, with any
blanks around them and each apart from what follows it.  Such a text is read as these tokens
(`Token.Spells.scan`).  Blanks behind a token always keep it apart, so a text of tokens with blanks
between any two of them is one example (`Token.scan_spaced`).  Blanks are not always needed, which
is why the relation asks for less.
-/

namespace Scriptlet

namespace Token

variable {t : Token} {ts : List Token} {c : Char} {cs rest : List Char}

/-! ## Tokens that have a spelling -/

/-- Whether characters are a name: a letter or an underscore, and then letters, underscores and
digits. -/
def isName : List Char → Bool
  | [] => false
  | c :: rest => isNameStart c && rest.all isNamePart

/-- The tokens that are spelled like names. -/
def keywords : List Token := [fnWord, letWord, trueWord, falseWord, returnWord, ifWord, elseWord]

/-- The characters that start a token other than a name, a keyword or an integer. -/
def signs : List Char :=
  ['=', ';', ':', '(', ')', ',', '+', '\x7b', '\x7d', '[', ']', '!', '<', '>', '-', '*', '/', '"']

/-- Whether characters are a single one that has no meaning. -/
def isStray : List Char → Bool
  | [c] => !(isNameStart c || c.isDigit || signs.contains c || isBlank c || c == '\x00')
  | _ => false

/-- Whether a token can be read from its text.  A name must not be a keyword, an integer not be
negative, a string not contain a quote, and an unknown token must be a single character that has no
meaning.  The end of the file has no spelling. -/
def isLexical : Token → Bool
  | identifier name => isName name.toList && keywords.all fun word => word.text != name
  | integer value => 0 ≤ value
  | string contents => !contents.toList.contains '"'
  | unknown text => isStray text.toList
  | endOfFile => false
  | _ => true

/-- Whether a character behind a token makes it a longer token. -/
def goesOn : Token → Char → Bool
  | assign, c | bang, c => c == '='
  | integer _, c => c.isDigit
  | identifier _, c | fnWord, c | letWord, c | trueWord, c | falseWord, c | returnWord, c
  | ifWord, c | elseWord, c => isNamePart c
  | _, _ => false

/-- A token ends where the rest of a text starts. -/
def Apart (t : Token) (rest : List Char) : Prop := ∀ c, rest.head? = some c → t.goesOn c = false

/-! ## Single tokens -/

/-- Characters that all pass a test, before one that does not. -/
theorem takeWhile_append_apart {p : Char → Bool} (hall : ∀ c ∈ cs, p c = true)
    (hrest : ∀ c, rest.head? = some c → p c = false) :
    (cs ++ rest).takeWhile p = cs ∧ (cs ++ rest).dropWhile p = rest := by
  rw [List.takeWhile_append_of_pos hall, List.dropWhile_append_of_pos hall]
  cases rest with
  | nil => simp
  | cons c rest =>
    have hc := hrest c rfl
    simp [hc]

/-- Blanks before a token do not count. -/
theorem next_blank {blank : List Char} (h : ∀ c ∈ blank, isBlank c = true) (cs : List Char) :
    next (blank ++ cs) = next cs := by
  rw [next, List.dropWhile_append_of_pos h, next]

/-- The characters that have a meaning and stand in no name and in no integer. -/
def marks : List Char := '\x00' :: ' ' :: '\t' :: '\n' :: '\r' :: signs

theorem notMem_marks_of_isBlank (hsign : c ∉ signs) (hnull : c ≠ '\x00') (h : isBlank c = false) :
    c ∉ marks := by
  simp only [isBlank, Bool.or_eq_false_iff, beq_eq_false_iff_ne] at h
  simp only [marks, List.mem_cons, not_or]
  exact ⟨hnull, h.1.1.1, h.1.1.2, h.1.2, h.2, hsign⟩

theorem isBlank_eq_false (h : c ∉ marks) : isBlank c = false := by
  simp only [marks, List.mem_cons, not_or] at h
  simp only [isBlank, Bool.or_eq_false_iff, beq_eq_false_iff_ne]
  exact ⟨⟨⟨h.2.1, h.2.2.1⟩, h.2.2.2.1⟩, h.2.2.2.2.1⟩

theorem eq_false_of_mem_marks {p : Char → Bool} (hp : marks.any p = false) (h : c ∈ marks) :
    p c = false := Bool.eq_false_iff.2 (List.any_eq_false.1 hp c h)

/-- A character of a class that has no mark in it is no mark. -/
theorem notMem_marks {p : Char → Bool} (hp : marks.any p = false) (h : p c = true) : c ∉ marks := by
  intro hmem
  rw [eq_false_of_mem_marks hp hmem] at h
  cases h

/-- A character that is no mark starts a name, an integer or nothing. -/
theorem next_of_notMem (h : c ∉ marks) (rest : List Char) :
    next (c :: rest) =
      if isNameStart c then
        (.ok (ofWord (String.ofList (c :: rest.takeWhile isNamePart))), rest.dropWhile isNamePart)
      else if c.isDigit then
        (ofDigits (c :: rest.takeWhile Char.isDigit), rest.dropWhile Char.isDigit)
      else (.ok (unknown (String.singleton c)), rest) := by
  rw [next, List.dropWhile_cons, if_neg (by rw [isBlank_eq_false h]; exact Bool.false_ne_true)]
  show nextFrom c rest = _
  unfold nextFrom
  split
  case h_20 => rfl
  all_goals exact absurd (by decide) h

/-- A name or a keyword is read whole. -/
theorem next_name (name : String) (hname : isName name.toList = true)
    (hrest : ∀ c, rest.head? = some c → isNamePart c = false) :
    next (name.toList ++ rest) = (.ok (ofWord name), rest) := by
  cases hchars : name.toList with
  | nil =>
    rw [hchars] at hname
    cases hname
  | cons c cs =>
    rw [hchars] at hname
    obtain ⟨hstart, hparts⟩ := Bool.and_eq_true_iff.1 hname
    obtain ⟨htake, hdrop⟩ := takeWhile_append_apart (List.all_eq_true.1 hparts) hrest
    have hmarks : c ∉ marks := notMem_marks (p := isNameStart) rfl hstart
    rw [List.cons_append, next_of_notMem hmarks, if_pos hstart, htake, hdrop, ← hchars,
      String.ofList_toList]

theorem ofWord_eq_identifier {name : String}
    (h : (keywords.all fun word => word.text != name) = true) : ofWord name = identifier name := by
  unfold ofWord
  split
  case h_8 => rfl
  all_goals exact absurd h (by decide)

/-- No name starts with a digit. -/
theorem isNameStart_eq_false (h : c.isDigit = true) : isNameStart c = false := by
  have hnine : c.val.toNat ≤ 57 := of_decide_eq_true (Bool.and_eq_true_iff.1 h).2
  have hupper : c.isUpper = false := decide_eq_false fun hc => by
    have hfirst : 65 ≤ c.val.toNat := hc.1
    omega
  have hlower : c.isLower = false := Bool.and_eq_false_iff.2 (.inl (decide_eq_false fun hc => by
    have hfirst : 97 ≤ c.val.toNat := hc
    omega))
  have hunderscore : (c == '_') = false := beq_eq_false_iff_ne.2 fun hc => by
    rw [hc] at h
    exact absurd h (by decide)
  show (c.isUpper || c.isLower || c == '_') = false
  rw [hupper, hlower, hunderscore]
  rfl

/-- The digits of a number are read as this number. -/
theorem next_integer {value : Int64} (h : 0 ≤ value)
    (hrest : ∀ c, rest.head? = some c → c.isDigit = false) :
    next ((integerText value).toList ++ rest) = (.ok (integer value), rest) := by
  have htext : (integerText value).toList = Nat.toDigits 10 value.toNatClampNeg := by
    unfold integerText
    rw [Int64.toInt_eq_toNatClampNeg h]
    exact Nat.toList_repr
  have hvalue : ofDigits (Nat.toDigits 10 value.toNatClampNeg) = .ok (integer value) := by
    have hdecimal : decimal (Nat.toDigits 10 value.toNatClampNeg) = value.toNatClampNeg := by
      rw [decimal, ← Nat.ofDigitChars_eq_foldl, Nat.ofDigitChars_ten_toDigits]
    have hlt : value.toNatClampNeg < integerBound := value.toNatClampNeg_lt
    simp only [ofDigits, hdecimal, if_pos hlt, Int64.ofNat_toNatClampNeg value h]
  rw [htext]
  cases hchars : Nat.toDigits 10 value.toNatClampNeg with
  | nil => exact absurd hchars Nat.toDigits_ne_nil
  | cons d ds =>
    have hdigit : ∀ c ∈ d :: ds, c.isDigit = true := fun c hc =>
      Nat.isDigit_of_mem_toDigits (by decide) (Nat.le_refl 10) (hchars ▸ hc)
    have hd := hdigit d (.head _)
    obtain ⟨htake, hdrop⟩ := takeWhile_append_apart (fun c hc => hdigit c (.tail _ hc)) hrest
    have hmarks : d ∉ marks := notMem_marks (p := Char.isDigit) rfl hd
    rw [List.cons_append, next_of_notMem hmarks, isNameStart_eq_false hd, htake, hdrop,
      if_neg Bool.false_ne_true, if_pos hd, ← hchars, hvalue]

/-- A string literal is read up to its closing quote. -/
theorem next_string {contents : String} (h : '"' ∉ contents.toList) :
    next ('"' :: (contents.toList ++ '"' :: rest)) = (.ok (string contents), rest) := by
  have hall : ∀ c ∈ contents.toList, (c != '"') = true := fun c hc =>
    bne_iff_ne.2 (ne_of_mem_of_not_mem hc h)
  have hquote : ∀ c, ('"' :: rest).head? = some c → (c != '"') = false := by
    rintro _ ⟨⟩
    rfl
  obtain ⟨htake, hdrop⟩ := takeWhile_append_apart hall hquote
  show nextString _ = _
  rw [nextString, htake, hdrop, String.ofList_toList]

/-- A character that has no meaning is read as an unknown token. -/
theorem next_stray {text : String} (h : isStray text.toList = true) :
    next (text.toList ++ rest) = (.ok (unknown text), rest) := by
  unfold isStray at h
  split at h
  · next c hc =>
    simp only [Bool.not_eq_true', Bool.or_eq_false_iff, beq_eq_false_iff_ne] at h
    obtain ⟨⟨⟨⟨hname, hdigit⟩, hsign⟩, hblank⟩, hnull⟩ := h
    have hmarks : c ∉ marks := notMem_marks_of_isBlank (by simpa using hsign) hnull hblank
    have htext : String.singleton c = text := by
      rw [← String.ofList_toList (s := text), hc, String.singleton_eq_ofList]
    rw [hc, List.singleton_append, next_of_notMem hmarks, hname, hdigit, htext]
    rfl
  · cases h

/-- A sign that has a longer form is read as it stands before anything but the rest of that form. -/
theorem nextOrEqual_apart {short long : Token} (h : ∀ c, rest.head? = some c → (c == '=') = false) :
    nextOrEqual short long rest = (.ok short, rest) := by
  unfold nextOrEqual
  split
  · exact absurd (h '=' rfl) (by decide)
  · rfl

/-- A token that ends where the rest of the text starts is read. -/
theorem next_text (h : t.isLexical = true) (hrest : t.Apart rest) :
    next (t.text.toList ++ rest) = (.ok t, rest) := by
  cases t with
  | identifier name =>
    obtain ⟨hname, hword⟩ := Bool.and_eq_true_iff.1 h
    exact (next_name name hname hrest).trans (by rw [ofWord_eq_identifier hword])
  | integer value => exact next_integer (of_decide_eq_true h) hrest
  | string contents =>
    have hcontents : (!contents.toList.contains '"') = true := h
    have hquote : '"' ∉ contents.toList := by simpa using hcontents
    have htext : (string contents).text.toList ++ rest =
        '"' :: (contents.toList ++ '"' :: rest) := by simp [text]
    rw [htext, next_string hquote]
  | unknown text => exact next_stray h
  | endOfFile => cases h
  | assign => exact nextOrEqual_apart hrest
  | bang => exact nextOrEqual_apart hrest
  | elseWord => exact next_name "else" (by decide) hrest
  | falseWord => exact next_name "false" (by decide) hrest
  | fnWord => exact next_name "fn" (by decide) hrest
  | ifWord => exact next_name "if" (by decide) hrest
  | letWord => exact next_name "let" (by decide) hrest
  | returnWord => exact next_name "return" (by decide) hrest
  | trueWord => exact next_name "true" (by decide) hrest
  | _ => rfl

/-! ## Texts -/

/-- The text spells the tokens: they stand in it one behind the other, with blanks before, between
and behind them, and each ends where the text behind it starts. -/
inductive Spells : List Char → List Token → Prop
  | blank {blank : List Char} (hblank : ∀ c ∈ blank, isBlank c = true) : Spells blank []
  | token {blank rest : List Char} {t : Token} {ts : List Token}
      (hblank : ∀ c ∈ blank, isBlank c = true) (ht : t.isLexical = true) (hapart : t.Apart rest)
      (hrest : Spells rest ts) : Spells (blank ++ (t.text.toList ++ rest)) (t :: ts)

theorem scanOnto_of_next {acc : List Token} (h : next cs = (.ok t, rest)) (ht : t ≠ endOfFile) :
    scanOnto acc cs = scanOnto (t :: acc) rest := by
  rw [scanOnto]
  split
  · next heq =>
    rw [h] at heq
    cases heq
  · next heq =>
    rw [h] at heq
    cases heq
    rw [dif_neg ht]

theorem scanOnto_of_end {acc : List Token} (h : next cs = (.ok endOfFile, rest)) :
    scanOnto acc cs = .ok acc.reverse := by
  rw [scanOnto]
  split
  · next heq =>
    rw [h] at heq
    cases heq
  · next heq =>
    rw [h] at heq
    cases heq
    rw [dif_pos rfl]

theorem Spells.scanOnto (h : Spells cs ts) (acc : List Token) :
    scanOnto acc cs = .ok (acc.reverse ++ ts) := by
  induction h generalizing acc with
  | @blank blank hblank =>
    have hend := next_blank hblank []
    rw [List.append_nil] at hend
    rw [scanOnto_of_end (hend.trans rfl), List.append_nil]
  | @token blank rest t ts hblank ht hapart _ ih =>
    have hnext := (next_blank hblank _).trans (next_text ht hapart)
    have hne : t ≠ endOfFile := by
      rintro rfl
      cases ht
    rw [scanOnto_of_next hnext hne, ih, List.reverse_cons, List.append_assoc, List.singleton_append]

/-- A text that spells tokens is read as these tokens. -/
theorem Spells.scan (h : Spells cs ts) : scan cs = .ok ts := h.scanOnto []

/-- A text that spells a token first is read as this token first. -/
theorem Spells.next (h : Spells cs (t :: ts)) : ∃ rest, next cs = (.ok t, rest) := by
  cases h with
  | token hblank ht hapart _ => exact ⟨_, (next_blank hblank _).trans (next_text ht hapart)⟩

/-- A token before a text that does not go on with it. -/
theorem Spells.cons (ht : t.isLexical = true) (hapart : t.Apart cs) (h : Spells cs ts) :
    Spells (t.text.toList ++ cs) (t :: ts) :=
  have hnone : ∀ c ∈ ([] : List Char), isBlank c = true := nofun
  .token hnone ht hapart h

/-- Blanks before a text. -/
theorem Spells.blank_append {blank : List Char} (hblank : ∀ c ∈ blank, isBlank c = true)
    (h : Spells cs ts) : Spells (blank ++ cs) ts := by
  cases h with
  | blank hblank' => exact .blank (List.forall_mem_append.2 ⟨hblank, hblank'⟩)
  | token hblank' ht hapart hrest =>
    rw [← List.append_assoc]
    exact .token (List.forall_mem_append.2 ⟨hblank, hblank'⟩) ht hapart hrest

theorem Spells.space (h : Spells cs ts) : Spells (" ".toList ++ cs) ts :=
  h.blank_append (List.all_eq_true.1 rfl)

/-! ## Texts that end every token -/

/-- A mark ends every token, unless it is `=`. -/
theorem goesOn_eq_false (t : Token) (h : c ∈ marks) (hne : c ≠ '=') : t.goesOn c = false := by
  have hequal : (c == '=') = false := beq_eq_false_iff_ne.2 hne
  have hdigit : c.isDigit = false := eq_false_of_mem_marks (p := Char.isDigit) rfl h
  have hpart : isNamePart c = false := eq_false_of_mem_marks (p := isNamePart) rfl h
  cases t <;> first | rfl | assumption

/-- Every token before the text ends where the text starts. -/
def Delimits (cs : List Char) : Prop := ∀ t : Token, t.Apart cs

theorem delimits_cons (h : c ∈ marks) (hne : c ≠ '=') (cs : List Char) : Delimits (c :: cs) := by
  rintro t _ ⟨⟩
  exact goesOn_eq_false t h hne

theorem delimits_of_isBlank (h : isBlank c = true) (cs : List Char) : Delimits (c :: cs) := by
  simp only [isBlank, Bool.or_eq_true, beq_iff_eq] at h
  rcases h with ((rfl | rfl) | rfl) | rfl <;> exact delimits_cons (by decide) (by decide) cs

/-! ## Tokens with blanks between them -/

/-- The text of tokens, each with what is written behind it. -/
def spaced : List (Token × String) → String
  | [] => ""
  | (t, blank) :: rest => t.text ++ blank ++ spaced rest

/-- Tokens with blanks around them are spelled if there is at least one between any two. -/
theorem spells_spaced {lead : List Char} {ps : List (Token × String)}
    (hlead : ∀ c ∈ lead, isBlank c = true)
    (hblank : ∀ p ∈ ps, ∀ c ∈ p.2.toList, isBlank c = true)
    (hgap : ∀ p ∈ ps.dropLast, p.2 ≠ "") (ht : ∀ p ∈ ps, p.1.isLexical = true) :
    Spells (lead ++ (spaced ps).toList) (ps.map Prod.fst) := by
  induction ps generalizing lead with
  | nil =>
    rw [spaced, show ("" : String).toList = [] from rfl, List.append_nil]
    exact .blank hlead
  | cons p ps ih =>
    obtain ⟨t, blank⟩ := p
    have hfirst := hblank _ (.head _)
    have hgap' : ∀ p ∈ ps.dropLast, p.2 ≠ "" := fun p hp => by
      cases ps with
      | nil => cases hp
      | cons => exact hgap p (.tail _ hp)
    have hrest := ih hfirst (fun p hp => hblank p (.tail _ hp)) hgap'
      fun p hp => ht p (.tail _ hp)
    have hapart : t.Apart (blank.toList ++ (spaced ps).toList) := fun c hc => by
      cases hchars : blank.toList with
      | cons d ds =>
        rw [hchars] at hc
        exact delimits_of_isBlank (hfirst d (hchars ▸ .head _)) _ t c hc
      | nil =>
        -- without a blank, this is the last token
        cases ps with
        | nil =>
          rw [hchars] at hc
          cases hc
        | cons =>
          refine absurd ?_ (hgap _ (.head _))
          rw [← String.ofList_toList (s := blank), hchars]
    rw [spaced, String.toList_append, String.toList_append, List.append_assoc]
    exact .token hlead (ht _ (.head _)) hapart hrest

/-- Any tokens that can be spelled, with blanks around them and at least one between any two, are
read back. -/
theorem scan_spaced {lead : String} {ps : List (Token × String)}
    (hlead : ∀ c ∈ lead.toList, isBlank c = true)
    (hblank : ∀ p ∈ ps, ∀ c ∈ p.2.toList, isBlank c = true)
    (hgap : ∀ p ∈ ps.dropLast, p.2 ≠ "") (ht : ∀ p ∈ ps, p.1.isLexical = true) :
    scan (lead ++ spaced ps).toList = .ok (ps.map Prod.fst) := by
  rw [String.toList_append]
  exact (spells_spaced hlead hblank hgap ht).scan

/-- Tokens that would be longer without a blank, a string that contains the character of the end of
the file, and the largest integer. -/
def crowded : List (Token × String) :=
  [(ifWord, " "), (identifier "if_0", "\r\n"), (assign, "\t"), (equal, " "), (bang, " "),
    (assign, " "), (string "\x00 = '@", " "), (integer 9223372036854775807, " "),
    (integer 0, "\n\n"), (unknown "@", " "), (semicolon, "")]

theorem crowded_read : scan ("\n" ++ spaced crowded).toList = .ok (crowded.map Prod.fst) :=
  have hblank : crowded.all (fun p => p.2.toList.all isBlank) = true := by decide
  scan_spaced (List.all_eq_true.1 rfl)
    (fun p hp => List.all_eq_true.1 (List.all_eq_true.1 hblank p hp)) (by decide) (by decide)

end Token

end Scriptlet
