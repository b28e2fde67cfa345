import AdacHybridMsp430.BlankSeparatedWords
import Mathlib.Data.List.TakeWhile

/-!
# Words of a shell command

Token recognition and quote removal of the POSIX shell for a simple command.
The result is the argument vector that the text alone determines; there is none
when the shell would act on an operator, an expansion or a pattern, or when a
quotation is not closed.  A text that should deliver given words does so
exactly when none of them contains a character with a meaning to the shell.
-/

namespace ShellWords

open BlankSeparated

def isBlank (character : Char) : Bool :=
  character = ' ' || character = '\t'

/-- The characters that quote others and are removed afterwards. -/
def isQuote (character : Char) : Bool :=
  character = '\'' || character = '"' || character = '\\'

/-- Unquoted operators, expansions and pattern characters. -/
def isSpecial (character : Char) : Bool :=
  "\n;&|<>()$`*?".toList.contains character

/-- An opening bracket before this text starts a pattern: the bracket is closed
in the same word and path component, after at least one character. -/
def closesBracket (rest : List Char) : Bool :=
  let inside := if rest.head? = some '!' then rest.tail else rest
  ((inside.takeWhile fun character =>
    !isBlank character && character != '/').drop 1).contains ']'

/-- The quotation that the next character is in. -/
inductive Mode
  | unquoted
  | escaped
  | singleQuoted
  | doubleQuoted
  | doubleEscaped
deriving DecidableEq

/-- Add a character to the current word, starting it if there is none. -/
def extend (word : Option (List Char)) (characters : List Char) :
    Option (List Char) :=
  some (word.getD [] ++ characters)

/-- Scan a command from the middle of a word, if one has been started. -/
def scan : Mode → Option (List Char) → List Char → Option (List (List Char))
  | .unquoted, word, [] => some word.toList
  | _, _, [] => none
  | .unquoted, word, character :: rest =>
      if character = '\\' then scan .escaped word rest
      else if character = '\'' then scan .singleQuoted (extend word []) rest
      else if character = '"' then scan .doubleQuoted (extend word []) rest
      else if isBlank character then
        (scan .unquoted none rest).map (word.toList ++ ·)
      else if isSpecial character then none
      else if character = '[' ∧ closesBracket rest then none
      -- a comment ends the command unless the next line holds another one
      else if word = none ∧ character = '#' then
        if '\n' ∈ rest then none else some []
      else if word = none ∧ character = '~' then none
      else scan .unquoted (extend word [character]) rest
  | .escaped, word, character :: rest =>
      -- an escaped newline continues the line
      if character = '\n' then scan .unquoted word rest
      else scan .unquoted (extend word [character]) rest
  | .singleQuoted, word, character :: rest =>
      if character = '\'' then scan .unquoted word rest
      else scan .singleQuoted (extend word [character]) rest
  | .doubleQuoted, word, character :: rest =>
      if character = '"' then scan .unquoted word rest
      else if character = '\\' then scan .doubleEscaped word rest
      else if character = '$' ∨ character = '`' then none
      else scan .doubleQuoted (extend word [character]) rest
  | .doubleEscaped, word, character :: rest =>
      if character = '\n' then scan .doubleQuoted word rest
      else if "$`\"\\".toList.contains character then
        scan .doubleQuoted (extend word [character]) rest
      else scan .doubleQuoted (extend word ['\\', character]) rest

/-- The argument vector of a command. -/
def shellWords (command : List Char) : Option (List (List Char)) :=
  scan .unquoted none command

example : shellWords "cc  -D'a b'\\ c \"$\" #".toList = none := by decide +kernel

example : shellWords "cc  -D'a b'\\ c \"\" # \"".toList =
    some ["cc".toList, "-Da b c".toList, []] := by decide +kernel

/-- A character that the shell passes on unless it starts a word. -/
def isOrdinary (character : Char) : Bool :=
  !isQuote character && !isBlank character && !isSpecial character

/-- A word that the shell passes on unchanged before the text that is left. -/
structure PlainBefore (rest word : List Char) : Prop where
  nonempty : word ≠ []
  ordinary : ∀ character ∈ word, isOrdinary character = true
  noComment : word.head? ≠ some '#'
  noTilde : word.head? ≠ some '~'
  noBracket : ∀ before after, word = before ++ '[' :: after →
    closesBracket (after ++ rest) = false

/-- A word that the shell passes on unchanged. -/
abbrev Plain (word : List Char) : Prop :=
  PlainBefore [] word

@[simp]
theorem getD_extend (word : Option (List Char)) (characters : List Char) :
    (extend word characters).getD [] = word.getD [] ++ characters :=
  rfl

/-- What the scanner can do with an unquoted character. -/
theorem scan_unquoted_cons {word : Option (List Char)} {character : Char}
    {rest : List Char} {result : List (List Char)}
    (scanned : scan .unquoted word (character :: rest) = some result) :
    (isQuote character = true ∧ ∃ mode next, mode ≠ .doubleEscaped ∧
      next.getD [] = word.getD [] ∧ scan mode next rest = some result) ∨
    (isBlank character = true ∧ ∃ tail,
      scan .unquoted none rest = some tail ∧ result = word.toList ++ tail) ∨
    (word = none ∧ character = '#' ∧ result = []) ∨
    (isOrdinary character = true ∧
      (word = none → character ≠ '#' ∧ character ≠ '~') ∧
      (character = '[' → closesBracket rest = false) ∧
      scan .unquoted (extend word [character]) rest = some result) := by
  rw [scan] at scanned
  by_cases backslash : character = '\\'
  · rw [if_pos backslash] at scanned
    exact Or.inl ⟨by simp [isQuote, backslash], _, _, by simp, rfl, scanned⟩
  rw [if_neg backslash] at scanned
  by_cases single : character = '\''
  · rw [if_pos single] at scanned
    exact Or.inl ⟨by simp [isQuote, single], _, _, by simp, by simp, scanned⟩
  rw [if_neg single] at scanned
  by_cases double : character = '"'
  · rw [if_pos double] at scanned
    exact Or.inl ⟨by simp [isQuote, double], _, _, by simp, by simp, scanned⟩
  rw [if_neg double] at scanned
  cases blank : isBlank character with
  | true =>
      rw [if_pos blank, Option.map_eq_some_iff] at scanned
      obtain ⟨tail, tailScanned, resultEq⟩ := scanned
      exact Or.inr (Or.inl ⟨rfl, tail, tailScanned, resultEq.symm⟩)
  | false =>
      cases special : isSpecial character with
      | true => simp [blank, special] at scanned
      | false =>
          rw [if_neg (by simp [blank]), if_neg (by simp [special])] at scanned
          by_cases bracket : character = '[' ∧ closesBracket rest
          · simp [bracket] at scanned
          rw [if_neg bracket] at scanned
          by_cases comment : word = none ∧ character = '#'
          · rw [if_pos comment] at scanned
            split_ifs at scanned
            exact Or.inr (Or.inr (Or.inl
              ⟨comment.1, comment.2, (Option.some.inj scanned).symm⟩))
          rw [if_neg comment] at scanned
          split_ifs at scanned with tilde
          refine Or.inr (Or.inr (Or.inr ⟨?_, ?_, ?_, scanned⟩))
          · simp [isOrdinary, isQuote, backslash, single, double, blank, special]
          · exact fun atStart =>
              ⟨fun same => comment ⟨atStart, same⟩,
                fun same => tilde ⟨atStart, same⟩⟩
          · intro opens
            simpa [opens] using bracket

section QuoteCount

def quoteCount (text : List Char) : Nat :=
  text.countP isQuote

@[simp]
theorem quoteCount_append (first second : List Char) :
    quoteCount (first ++ second) = quoteCount first + quoteCount second :=
  List.countP_append

@[simp]
theorem quoteCount_nil : quoteCount [] = 0 :=
  rfl

theorem quoteCount_cons (character : Char) (rest : List Char) :
    quoteCount (character :: rest) =
      (isQuote character).toNat + quoteCount rest := by
  cases quote : isQuote character <;> simp [quoteCount, quote, Nat.add_comm]

theorem quoteCount_flatten_toList (word : Option (List Char)) :
    quoteCount word.toList.flatten = quoteCount (word.getD []) := by
  cases word <;> simp

/-- The backslash that a double quotation may still give back. -/
def pendingQuotes (mode : Mode) : Nat :=
  if mode = .doubleEscaped then 1 else 0

/-- A quoted character adds to the word at most the quoting characters that
have been read. -/
theorem scan_quoted_cons {mode : Mode} {word : Option (List Char)}
    {character : Char} {rest : List Char} {result : List (List Char)}
    (quoted : mode ≠ .unquoted)
    (scanned : scan mode word (character :: rest) = some result) :
    ∃ mode' next, scan mode' next rest = some result ∧
      quoteCount (next.getD []) + pendingQuotes mode' ≤
        quoteCount (word.getD []) + pendingQuotes mode +
          (isQuote character).toNat := by
  cases mode with
  | unquoted => exact absurd rfl quoted
  | escaped =>
      rw [scan] at scanned
      split_ifs at scanned
      · exact ⟨_, _, scanned, by simp [pendingQuotes]⟩
      · exact ⟨_, _, scanned, by simp [pendingQuotes, quoteCount_cons]⟩
  | singleQuoted =>
      rw [scan] at scanned
      split_ifs at scanned
      · exact ⟨_, _, scanned, by simp [pendingQuotes]⟩
      · exact ⟨_, _, scanned, by simp [pendingQuotes, quoteCount_cons]⟩
  | doubleQuoted =>
      rw [scan] at scanned
      split_ifs at scanned with closing backslash expansion
      · exact ⟨_, _, scanned, by simp [pendingQuotes]⟩
      · exact ⟨_, _, scanned, by simp [pendingQuotes, backslash, isQuote]⟩
      · exact ⟨_, _, scanned, by simp [pendingQuotes, quoteCount_cons]⟩
  | doubleEscaped =>
      rw [scan] at scanned
      split_ifs at scanned
      · exact ⟨_, _, scanned, by simp [pendingQuotes]; omega⟩
      · exact ⟨_, _, scanned, by simp [pendingQuotes, quoteCount_cons]⟩
      · refine ⟨_, _, scanned, ?_⟩
        simp [pendingQuotes, quoteCount_cons, isQuote]
        omega

/-- Quoting characters of the result were quoted in the text. -/
theorem quoteCount_scan_le {mode : Mode} {word : Option (List Char)}
    {text : List Char} {result : List (List Char)}
    (scanned : scan mode word text = some result) :
    quoteCount result.flatten ≤
      quoteCount (word.getD []) + pendingQuotes mode + quoteCount text := by
  induction text generalizing mode word result with
  | nil =>
      cases mode <;> simp [scan] at scanned
      subst scanned
      simp [quoteCount_flatten_toList]
  | cons character rest ih =>
      rw [quoteCount_cons]
      by_cases unquoted : mode = .unquoted
      · subst unquoted
        rcases scan_unquoted_cons scanned with
          ⟨_, mode, next, notPending, same, restScanned⟩ |
          ⟨_, tail, tailScanned, rfl⟩ | ⟨_, _, rfl⟩ | ⟨_, _, _, restScanned⟩
        · have bound := ih restScanned
          simp only [same, pendingQuotes, if_neg notPending] at bound ⊢
          omega
        · have bound := ih tailScanned
          simp only [List.flatten_append, quoteCount_append,
            quoteCount_flatten_toList, Option.getD_none, quoteCount_nil]
            at bound ⊢
          omega
        · simp
        · have bound := ih restScanned
          simp only [getD_extend, quoteCount_append, quoteCount_cons,
            quoteCount_nil] at bound
          omega
      · obtain ⟨mode', next, restScanned, bound⟩ :=
          scan_quoted_cons unquoted scanned
        have tailBound := ih restScanned
        omega

theorem isQuote_of_isBlank {character : Char}
    (blank : isBlank character = true) : isQuote character = false := by
  simp only [isBlank, Bool.or_eq_true, decide_eq_true_eq] at blank
  rcases blank with rfl | rfl <;> rfl

theorem isQuote_of_isOrdinary {character : Char}
    (ordinary : isOrdinary character = true) : isQuote character = false := by
  simp only [isOrdinary, Bool.and_eq_true, Bool.not_eq_true'] at ordinary
  exact ordinary.1.1

/-- The first quoting character outside quotations is lost. -/
theorem quoteCount_scan_lt {word : Option (List Char)} {text : List Char}
    {result : List (List Char)} (quotes : 0 < quoteCount text)
    (scanned : scan .unquoted word text = some result) :
    quoteCount result.flatten < quoteCount (word.getD []) + quoteCount text := by
  induction text generalizing word result with
  | nil => simp at quotes
  | cons character rest ih =>
      rw [quoteCount_cons] at quotes ⊢
      rcases scan_unquoted_cons scanned with
        ⟨quote, mode, next, notPending, same, restScanned⟩ |
        ⟨blank, tail, tailScanned, rfl⟩ | ⟨_, _, rfl⟩ |
        ⟨ordinary, _, _, restScanned⟩
      · have bound := quoteCount_scan_le restScanned
        simp only [same, pendingQuotes, if_neg notPending] at bound
        simp only [quote, Bool.toNat_true]
        omega
      · simp only [isQuote_of_isBlank blank, Bool.toNat_false, Nat.zero_add]
          at quotes ⊢
        have bound := ih quotes tailScanned
        simpa [quoteCount_flatten_toList] using bound
      · simp only [List.flatten_nil, quoteCount_nil]
        omega
      · simp only [isQuote_of_isOrdinary ordinary, Bool.toNat_false, Nat.zero_add]
          at quotes ⊢
        have bound := ih quotes restScanned
        simpa [quoteCount_cons, isQuote_of_isOrdinary ordinary] using bound

end QuoteCount

section Delivery

/-- Closing a bracket does not look past the word. -/
theorem closesBracket_takeWhile (rest : List Char) :
    closesBracket (rest.takeWhile fun symbol => !isBlank symbol) =
      closesBracket rest := by
  have inside (text : List Char) :
      ((text.takeWhile fun symbol => !isBlank symbol).takeWhile
          fun symbol => !isBlank symbol && symbol != '/') =
        text.takeWhile fun symbol => !isBlank symbol && symbol != '/' := by
    rw [List.takeWhile_takeWhile]
    congr 1
    funext symbol
    rw [Bool.eq_iff_iff]
    cases isBlank symbol <;> simp
  cases rest with
  | nil => rfl
  | cons first rest =>
      by_cases negated : first = '!'
      · subst negated
        have notBlank : isBlank '!' = false := rfl
        simp [closesBracket, notBlank, inside]
      · cases blank : isBlank first with
        | true => simp [closesBracket, blank, negated]
        | false =>
            have same := inside (first :: rest)
            have kept : (first :: rest).takeWhile (fun symbol => !isBlank symbol) =
                first :: rest.takeWhile fun symbol => !isBlank symbol := by
              simp [blank]
            rw [kept] at same ⊢
            simp only [closesBracket, List.head?_cons, Option.some.injEq, negated,
              if_false, same]

/-- Text without closing brackets closes none. -/
theorem closesBracket_append {suffix : List Char}
    (starts : suffix.head? ≠ some '!') (noClose : ']' ∉ suffix)
    (text : List Char) :
    closesBracket (text ++ suffix) = closesBracket text := by
  have inside (text : List Char) :
      (((text ++ suffix).takeWhile fun symbol =>
          !isBlank symbol && symbol != '/').drop 1).contains ']' =
        ((text.takeWhile fun symbol =>
          !isBlank symbol && symbol != '/').drop 1).contains ']' := by
    have noneTaken : ']' ∉ suffix.takeWhile fun symbol =>
        !isBlank symbol && symbol != '/' :=
      fun member => noClose ((List.takeWhile_sublist _).mem member)
    rw [List.takeWhile_append]
    split_ifs with whole
    · have same := (List.takeWhile_prefix _).eq_of_length whole
      rw [same, List.drop_append, Bool.eq_iff_iff]
      simp only [List.contains_iff_mem, List.mem_append]
      exact or_iff_left fun member => noneTaken (List.mem_of_mem_drop member)
    · rfl
  cases text with
  | nil => simpa [closesBracket, starts] using inside []
  | cons first rest =>
      by_cases negated : first = '!'
      · simpa [closesBracket, negated] using inside rest
      · simpa [closesBracket, negated] using inside (first :: rest)

/-- What follows a blank after a word does not concern the word. -/
theorem PlainBefore.plain {word rest : List Char} {separator : Char}
    (blank : isBlank separator = true)
    (plain : PlainBefore (separator :: rest) word) : Plain word where
  nonempty := plain.nonempty
  ordinary := plain.ordinary
  noComment := plain.noComment
  noTilde := plain.noTilde
  noBracket before after split := by
    have blankFree : ∀ symbol ∈ after, (!isBlank symbol) = true := by
      intro symbol member
      have ordinary := plain.ordinary symbol (by simp [split, member])
      simp only [isOrdinary, Bool.and_eq_true] at ordinary
      exact ordinary.1.2
    have closed := plain.noBracket before after split
    rw [← closesBracket_takeWhile, List.takeWhile_append_of_pos blankFree,
      List.takeWhile_cons_of_neg (by simp [blank])] at closed
    exact closed

/-- A plain start of a word stays plain with the next ordinary character. -/
theorem PlainBefore.concat {word rest : List Char} {character : Char}
    (plain : PlainBefore (character :: rest) word)
    (ordinary : isOrdinary character = true)
    (bracket : character = '[' → closesBracket rest = false) :
    PlainBefore rest (word ++ [character]) := by
  obtain ⟨head, others, rfl⟩ := List.exists_cons_of_ne_nil plain.nonempty
  refine ⟨by simp, ?_, by simpa using plain.noComment,
    by simpa using plain.noTilde, ?_⟩
  · intro symbol member
    rcases List.mem_append.mp member with old | new
    · exact plain.ordinary symbol old
    · rwa [List.mem_singleton.mp new]
  · intro before after split
    rcases List.eq_nil_or_concat after with rfl | ⟨shorter, last, rfl⟩
    · have last := List.append_inj_right' split rfl
      exact bracket (List.singleton_inj.mp last)
    · rw [List.concat_eq_append, ← List.cons_append, ← List.append_assoc]
        at split
      obtain ⟨same, lastSame⟩ := List.append_inj' split rfl
      rw [List.singleton_inj] at lastSame
      subst lastSame
      simpa using plain.noBracket before shorter same

theorem plainBefore_singleton {character : Char} {rest : List Char}
    (ordinary : isOrdinary character = true)
    (starts : character ≠ '#' ∧ character ≠ '~')
    (bracket : character = '[' → closesBracket rest = false) :
    PlainBefore rest [character] := by
  refine ⟨by simp, by simpa using ordinary, by simpa using starts.1,
    by simpa using starts.2, ?_⟩
  intro before after split
  obtain ⟨rfl, opens, rfl⟩ : before = [] ∧ character = '[' ∧ after = [] := by
    cases before <;> simp_all
  exact bracket opens

/-- Without quoting characters, every word of the result is plain. -/
theorem plain_of_scan {word : Option (List Char)} {text : List Char}
    {result : List (List Char)}
    (start : ∀ characters, word = some characters → PlainBefore text characters)
    (noQuotes : quoteCount text = 0)
    (scanned : scan .unquoted word text = some result) :
    ∀ delivered ∈ result, Plain delivered := by
  induction text generalizing word result with
  | nil =>
      simp only [scan, Option.some.injEq] at scanned
      subst scanned
      intro delivered member
      exact start delivered (by simpa using member)
  | cons character rest ih =>
      rw [quoteCount_cons] at noQuotes
      rcases scan_unquoted_cons scanned with
        ⟨quote, _⟩ | ⟨blank, tail, tailScanned, rfl⟩ | ⟨_, _, rfl⟩ |
        ⟨ordinary, starts, bracket, restScanned⟩
      · simp [quote] at noQuotes
      · intro delivered member
        rcases List.mem_append.mp member with inWord | inTail
        · exact (start delivered (by simpa using inWord)).plain blank
        · exact ih (by simp) (by omega) tailScanned delivered inTail
      · simp
      · refine ih ?_ (by omega) restScanned
        rintro characters ⟨⟩
        cases word with
        | none => exact plainBefore_singleton ordinary (starts rfl) bracket
        | some before => exact (start before rfl).concat ordinary bracket

theorem scan_of_isBlank {character : Char} (blank : isBlank character = true)
    (word : Option (List Char)) (rest : List Char) :
    scan .unquoted word (character :: rest) =
      (scan .unquoted none rest).map (word.toList ++ ·) := by
  have noQuote := isQuote_of_isBlank blank
  simp only [isQuote, Bool.or_eq_false_iff, decide_eq_false_iff_not] at noQuote
  rw [scan, if_neg noQuote.2, if_neg noQuote.1.1, if_neg noQuote.1.2,
    if_pos blank]

theorem scan_of_isOrdinary {character : Char}
    (ordinary : isOrdinary character = true) {word : Option (List Char)}
    (starts : word = none → character ≠ '#' ∧ character ≠ '~')
    {rest : List Char} (bracket : character = '[' → closesBracket rest = false) :
    scan .unquoted word (character :: rest) =
      scan .unquoted (extend word [character]) rest := by
  simp only [isOrdinary, isQuote, Bool.and_eq_true, Bool.not_eq_true',
    Bool.or_eq_false_iff, decide_eq_false_iff_not] at ordinary
  obtain ⟨⟨⟨⟨single, double⟩, backslash⟩, blank⟩, special⟩ := ordinary
  rw [scan, if_neg backslash, if_neg single, if_neg double,
    if_neg (by simp [blank]), if_neg (by simp [special]),
    if_neg fun opens => by simp [bracket opens.1] at opens,
    if_neg fun comment => (starts comment.1).1 comment.2,
    if_neg fun tilde => (starts tilde.1).2 tilde.2]

/-- A partial word as the list of words that it is. -/
theorem words_getD {word : Option (List Char)}
    (nonempty : word ≠ some [])
    (blankFree : ∀ symbol ∈ word.getD [], isBlank symbol = false) :
    words isBlank (word.getD []) = word.toList := by
  cases word with
  | none => simp
  | some characters =>
      exact words_of_blankFree isBlank (by simpa using nonempty) blankFree

theorem blankFree_extend {word : Option (List Char)} {character : Char}
    (blankFree : ∀ symbol ∈ word.getD [], isBlank symbol = false)
    (blank : isBlank character = false) :
    ∀ symbol ∈ (extend word [character]).getD [], isBlank symbol = false := by
  intro symbol member
  rw [getD_extend, List.mem_append, List.mem_singleton] at member
  rcases member with old | rfl
  · exact blankFree symbol old
  · exact blank

theorem isBlank_of_isOrdinary {character : Char}
    (ordinary : isOrdinary character = true) : isBlank character = false := by
  simp only [isOrdinary, Bool.and_eq_true, Bool.not_eq_true'] at ordinary
  exact ordinary.1.2

/-- A text of plain words is scanned into these words. -/
theorem scan_of_plain {word : Option (List Char)} {text : List Char}
    (nonempty : word ≠ some [])
    (blankFree : ∀ symbol ∈ word.getD [], isBlank symbol = false)
    (plain : ∀ segment ∈ words isBlank (word.getD [] ++ text), Plain segment) :
    scan .unquoted word text = some (words isBlank (word.getD [] ++ text)) := by
  induction text generalizing word with
  | nil =>
      rw [List.append_nil, words_getD nonempty blankFree, scan]
  | cons character rest ih =>
      cases blank : isBlank character with
      | true =>
          have split := words_append_blank isBlank blank (word.getD []) rest
          rw [split] at plain ⊢
          have tail := ih (show none ≠ some [] by simp) (by simp)
            fun segment member => plain segment
              (List.mem_append_right _ (by simpa using member))
          rw [scan_of_isBlank blank, tail, words_getD nonempty blankFree]
          rfl
      | false =>
          have longer : ∀ symbol ∈ word.getD [] ++ [character],
              isBlank symbol = false :=
            blankFree_extend blankFree blank
          obtain ⟨others, split⟩ :=
            exists_words_append isBlank (by simp) longer rest
          rw [List.append_assoc, List.singleton_append] at split
          have firstPlain := plain _ (split ▸ List.mem_cons_self)
          have ordinary := firstPlain.ordinary character (by simp)
          have starts : word = none → character ≠ '#' ∧ character ≠ '~' := by
            rintro rfl
            exact ⟨by simpa using firstPlain.noComment,
              by simpa using firstPlain.noTilde⟩
          have bracket : character = '[' → closesBracket rest = false := by
            rintro rfl
            have closed := firstPlain.noBracket (word.getD []) _ (by simp; rfl)
            rwa [List.append_nil, closesBracket_takeWhile] at closed
          rw [scan_of_isOrdinary ordinary starts bracket, ih]
          · simp
          · simp [extend]
          · exact longer
          · simpa using plain

/-- A text of ordinary characters is scanned into its words, unless part of it
is taken for a comment. -/
theorem scan_of_ordinary {word : Option (List Char)} {text : List Char}
    {result : List (List Char)} (nonempty : word ≠ some [])
    (blankFree : ∀ symbol ∈ word.getD [], isBlank symbol = false)
    (ordinary : ∀ symbol ∈ text, isBlank symbol = false →
      isOrdinary symbol = true)
    (scanned : scan .unquoted word text = some result) :
    result = words isBlank (word.getD [] ++ text) ∨
      result.flatten.length <
        ((word.getD [] ++ text).filter fun symbol => !isBlank symbol).length := by
  induction text generalizing word result with
  | nil =>
      simp only [scan, Option.some.injEq] at scanned
      rw [List.append_nil, words_getD nonempty blankFree]
      exact Or.inl scanned.symm
  | cons character rest ih =>
      have restOrdinary : ∀ symbol ∈ rest, isBlank symbol = false →
          isOrdinary symbol = true := fun symbol member =>
        ordinary symbol (by simp [member])
      rcases scan_unquoted_cons scanned with
        ⟨quote, _⟩ | ⟨blank, tail, tailScanned, rfl⟩ | ⟨rfl, rfl, rfl⟩ |
        ⟨isOrd, _, _, restScanned⟩
      · cases blank : isBlank character with
        | true => simp [isQuote_of_isBlank blank] at quote
        | false =>
            have isOrd := ordinary character (by simp) blank
            simp [isQuote_of_isOrdinary isOrd] at quote
      · rw [words_append_blank isBlank blank, words_getD nonempty blankFree]
        rcases ih (show none ≠ some [] by simp) (by simp) restOrdinary tailScanned
          with same | shorter
        · exact Or.inl (by rw [same]; simp)
        · right
          have wordLength :
              ((word.getD []).filter fun symbol => !isBlank symbol) =
                word.toList.flatten := by
            rw [List.filter_eq_self.mpr fun symbol member => by
              simp [blankFree symbol member]]
            cases word <;> simp
          simp only [Option.getD_none, List.nil_append] at shorter
          simp only [List.filter_append, List.filter_cons, blank, wordLength,
            List.flatten_append, List.length_append, Bool.not_true,
            Bool.false_eq_true, if_false]
          omega
      · right
        simp [isBlank]
      · have step := ih (show extend word [character] ≠ some [] by simp [extend])
          (blankFree_extend blankFree (isBlank_of_isOrdinary isOrd))
          restOrdinary restScanned
        simpa using step

theorem quoteCount_filter (text : List Char) :
    quoteCount (text.filter fun symbol => !isBlank symbol) = quoteCount text := by
  rw [quoteCount, List.countP_filter, quoteCount]
  apply List.countP_congr
  intro symbol _
  cases blank : isBlank symbol with
  | true => simp [isQuote_of_isBlank blank]
  | false => simp

/-- A text with the characters of the expected words, up to blanks, delivers
them exactly when they are plain and are its blank-separated words. -/
theorem shellWords_eq_some_iff {text : List Char} {expected : List (List Char)}
    (sameCharacters : (text.filter fun symbol => !isBlank symbol) =
      expected.flatten.filter fun symbol => !isBlank symbol) :
    shellWords text = some expected ↔
      (∀ segment ∈ expected, Plain segment) ∧ words isBlank text = expected := by
  constructor
  · intro scanned
    have noQuotes : quoteCount text = 0 := by
      by_contra quotes
      have lost := quoteCount_scan_lt (Nat.pos_of_ne_zero quotes) scanned
      rw [← quoteCount_filter text, sameCharacters, quoteCount_filter] at lost
      simp at lost
    have plain := plain_of_scan (by simp) noQuotes scanned
    have ordinary : ∀ symbol ∈ text, isBlank symbol = false →
        isOrdinary symbol = true := by
      intro symbol member blank
      have inExpected : symbol ∈
          expected.flatten.filter fun symbol => !isBlank symbol := by
        rw [← sameCharacters]
        exact List.mem_filter.mpr ⟨member, by simp [blank]⟩
      obtain ⟨segment, segmentMem, symbolMem⟩ :=
        List.mem_flatten.mp (List.mem_filter.mp inExpected).1
      exact (plain segment segmentMem).ordinary symbol symbolMem
    refine ⟨plain, ?_⟩
    rcases scan_of_ordinary (by simp) (by simp) ordinary scanned
      with same | shorter
    · simpa using same.symm
    · have bound := List.length_filter_le (fun symbol => !isBlank symbol)
        expected.flatten
      rw [Option.getD_none, List.nil_append, sameCharacters] at shorter
      omega
  · rintro ⟨plain, same⟩
    have scanned : scan .unquoted none text =
        some (words isBlank ([] ++ text)) :=
      scan_of_plain (by simp) (by simp) (by simpa [same] using plain)
    simpa [shellWords, same] using scanned

end Delivery

end ShellWords
