import Cppboot.Args

/-!
# The tokens of a command line

A line is made of words and of quoted sections, with blanks between them. What is a
blank and what can stand in a word are parameters here: a byte from 0x80 on is part
of a word where bytes are unsigned, and a blank for the tokenizer, which compares
plain characters. The tokenizer also takes an empty section for the end of the line.

So it returns the tokens of a line exactly when no word has such a byte and no
section is empty. A line that is not well formed is refused exactly when what is
wrong with it comes before the first empty section.
-/

namespace Cppboot.Args

variable {blank letter : UInt8 → Bool}

/-- A blank, for bytes that are unsigned. -/
def plainBlank (c : UInt8) : Bool := c ≤ 0x20

/-- A character of a word is neither a blank nor a quote. -/
def letterOf (blank : UInt8 → Bool) (c : UInt8) : Bool := !blank c && !isQuota c

/-- A line begins with some tokens, and the rest is left. A word ends at a blank or
at the end of the line. -/
inductive Scans (blank letter : UInt8 → Bool) : Bytes → List Bytes → Bytes → Prop
  | stop (line : Bytes) : Scans blank letter line [] line
  | word {gap word tail rest : Bytes} {tokens : List Bytes} :
    (∀ c ∈ gap, blank c = true) → word ≠ [] → (∀ c ∈ word, letter c = true) →
    (∀ c, tail.head? = some c → blank c = true) → Scans blank letter tail tokens rest →
    Scans blank letter (gap ++ (word ++ tail)) (word :: tokens) rest
  | quoted {gap inside tail rest : Bytes} {quota : UInt8} {tokens : List Bytes} :
    (∀ c ∈ gap, blank c = true) → isQuota quota = true → quota ∉ inside →
    Scans blank letter tail tokens rest →
    Scans blank letter (gap ++ quota :: (inside ++ quota :: tail)) (inside :: tokens) rest

/-- The tokens of a whole line. -/
def Splits (blank letter : UInt8 → Bool) (line : Bytes) (tokens : List Bytes) : Prop :=
  ∃ gap, Scans blank letter line tokens gap ∧ ∀ c ∈ gap, blank c = true

/-- The line begins with a section that is not closed, or with a word that has a
quote in it. -/
inductive Broken (blank letter : UInt8 → Bool) : Bytes → Prop
  | unclosed {gap inside : Bytes} {quota : UInt8} :
    (∀ c ∈ gap, blank c = true) → isQuota quota = true → quota ∉ inside →
    Broken blank letter (gap ++ quota :: inside)
  | inner {gap word tail : Bytes} {quota : UInt8} :
    (∀ c ∈ gap, blank c = true) → word ≠ [] → (∀ c ∈ word, letter c = true) →
    isQuota quota = true → Broken blank letter (gap ++ (word ++ quota :: tail))

/-- What remains of a line begins with an empty section. -/
def EmptySection (blank : UInt8 → Bool) (line : Bytes) : Prop :=
  ∃ gap quota tail, (∀ c ∈ gap, blank c = true) ∧ isQuota quota = true ∧
    line = gap ++ quota :: quota :: tail

/-- Without a token nothing is read. -/
theorem Scans.nothing {line rest : Bytes} (scans : Scans blank letter line [] rest) :
    rest = line := by
  cases scans
  rfl

/-- More characters may be blanks and letters. -/
theorem Scans.mono {blank' letter' : UInt8 → Bool} (blanks : ∀ c, blank c = true → blank' c = true)
    (letters : ∀ c, letter c = true → letter' c = true) {line rest : Bytes} {tokens : List Bytes}
    (scans : Scans blank letter line tokens rest) : Scans blank' letter' line tokens rest := by
  induction scans with
  | stop line => exact .stop line
  | word gap nonempty word boundary _ inductionHypothesis =>
    exact .word (fun c member => blanks c (gap c member)) nonempty
      (fun c member => letters c (word c member)) (fun c first => blanks c (boundary c first))
      inductionHypothesis
  | quoted gap quota plain _ inductionHypothesis =>
    exact .quoted (fun c member => blanks c (gap c member)) quota plain inductionHypothesis

/-- Blanks in front of something else are skipped. -/
theorem dropWhile_gap {gap line : Bytes} (blanks : ∀ c ∈ gap, blank c = true)
    (stops : ∀ c, line.head? = some c → blank c = false) : (gap ++ line).dropWhile blank = line :=
  (takeWhile_front blanks stops).2

/-- Nothing is left of a gap when blanks are skipped. -/
theorem dropWhile_blanks {gap : Bytes} (blanks : ∀ c ∈ gap, blank c = true) :
    gap.dropWhile blank = [] :=
  List.dropWhile_eq_nil_iff.mpr blanks

section Moves

variable {gap inside word tail value current : Bytes} {quota c : UInt8} {rest : Bytes}

/-- At the end of a line the token is empty. -/
theorem moveNext_gap (blanks : ∀ c ∈ gap, blank c = true) :
    Tokenizer.moveNext blank ⟨value, gap⟩ = .ok ⟨[], gap⟩ := by
  simp only [Tokenizer.moveNext, dropWhile_blanks blanks]

/-- What is done at a quote. -/
theorem moveNext_at_quota (skipped : current.dropWhile blank = quota :: rest)
    (opens : isQuota quota = true) :
    Tokenizer.moveNext blank ⟨value, current⟩ =
      match rest.dropWhile (· ≠ quota) with
      | [] => .error (.invalidArgumentError (text "Can't find end of Quota"))
      | _ :: behind => .ok ⟨rest.takeWhile (· ≠ quota), behind⟩ := by
  rw [Tokenizer.moveNext, skipped]
  exact if_pos opens

/-- What is done at a character of a word. -/
theorem moveNext_at_letter (skipped : current.dropWhile blank = c :: rest)
    (plain : isQuota c = false) :
    Tokenizer.moveNext blank ⟨value, current⟩ =
      match (c :: rest).dropWhile (letterOf blank) with
      | [] => .ok ⟨(c :: rest).takeWhile (letterOf blank), []⟩
      | d :: more =>
        if isQuota d then .error (.invalidArgumentError (text "Quota not first word"))
        else .ok ⟨(c :: rest).takeWhile (letterOf blank), d :: more⟩ := by
  simp only [Tokenizer.moveNext, skipped, plain, Bool.false_eq_true, if_false]
  rfl

/-- A letter is no blank and no quote. -/
theorem letterOf_apart (letter : letterOf blank c = true) :
    blank c = false ∧ isQuota c = false := by
  unfold letterOf at letter
  rw [Bool.and_eq_true, Bool.not_eq_true', Bool.not_eq_true'] at letter
  exact letter

/-- A blank is no letter. -/
theorem letterOf_blank (is_blank : blank c = true) : letterOf blank c = false := by
  rw [letterOf, is_blank]
  rfl

/-- A quotation mark is no letter. -/
theorem letterOf_quota (is_quota : isQuota c = true) : letterOf blank c = false := by
  rw [letterOf, is_quota, Bool.not_true, Bool.and_false]

/-- Behind a gap a word begins. -/
theorem dropWhile_word (blanks : ∀ c ∈ gap, blank c = true)
    (letters : ∀ d ∈ c :: word, letterOf blank d = true) :
    (gap ++ (c :: word ++ tail)).dropWhile blank = c :: (word ++ tail) := by
  refine dropWhile_gap blanks ?_
  rintro d ⟨⟩
  exact (letterOf_apart (letters c List.mem_cons_self)).1

/-- A word is taken up to the blank behind it. -/
theorem moveNext_word (blanks : ∀ c ∈ gap, blank c = true) (nonempty : word ≠ [])
    (letters : ∀ c ∈ word, letterOf blank c = true)
    (boundary : ∀ c, tail.head? = some c → blank c = true)
    (quotes : ∀ c, isQuota c = true → blank c = false) :
    Tokenizer.moveNext blank ⟨value, gap ++ (word ++ tail)⟩ = .ok ⟨word, tail⟩ := by
  obtain ⟨c, others, rfl⟩ := List.exists_cons_of_ne_nil nonempty
  have plain := (letterOf_apart (letters c List.mem_cons_self)).2
  obtain ⟨front, behind⟩ := takeWhile_front letters fun d first =>
    letterOf_blank (boundary d first)
  rw [moveNext_at_letter (dropWhile_word blanks letters) plain, ← List.cons_append, front, behind]
  cases tail with
  | nil => rfl
  | cons d more =>
    have not_quota : ¬ isQuota d = true := by
      intro is_quota
      have visible := quotes d is_quota
      rw [boundary d rfl] at visible
      cases visible
    exact if_neg not_quota

/-- A quoted text is taken without its quotation marks. -/
theorem moveNext_quoted (blanks : ∀ c ∈ gap, blank c = true) (opens : isQuota quota = true)
    (plain : quota ∉ inside) (quotes : ∀ c, isQuota c = true → blank c = false) :
    Tokenizer.moveNext blank ⟨value, gap ++ quota :: (inside ++ quota :: tail)⟩ =
      .ok ⟨inside, tail⟩ := by
  have skipped : (gap ++ quota :: (inside ++ quota :: tail)).dropWhile blank =
      quota :: (inside ++ quota :: tail) := by
    refine dropWhile_gap blanks ?_
    rintro d ⟨⟩
    exact quotes quota opens
  have stops : ∀ c, (quota :: tail).head? = some c → decide (c ≠ quota) = false := by
    rintro c ⟨⟩
    exact decide_eq_false fun other => other rfl
  obtain ⟨front, behind⟩ := takeWhile_front (kept_of_not_mem plain) stops
  rw [moveNext_at_quota skipped opens, front, behind]

/-- What is broken is refused. -/
theorem Broken.moveNext (broken : Broken blank (letterOf blank) current)
    (quotes : ∀ c, isQuota c = true → blank c = false) (value : Bytes) :
    ∃ st, Tokenizer.moveNext blank ⟨value, current⟩ = .error st := by
  cases broken with
  | @unclosed gap inside quota blanks opens plain =>
    have skipped : (gap ++ quota :: inside).dropWhile blank = quota :: inside := by
      refine dropWhile_gap blanks ?_
      rintro d ⟨⟩
      exact quotes quota opens
    rw [moveNext_at_quota skipped opens, List.dropWhile_eq_nil_iff.mpr (kept_of_not_mem plain)]
    exact ⟨_, rfl⟩
  | @inner gap word tail quota blanks nonempty letters is_quota =>
    obtain ⟨c, others, rfl⟩ := List.exists_cons_of_ne_nil nonempty
    have plain := (letterOf_apart (letters c List.mem_cons_self)).2
    have behind : (c :: others ++ quota :: tail).dropWhile (letterOf blank) = quota :: tail := by
      refine (takeWhile_front letters ?_).2
      rintro d ⟨⟩
      exact letterOf_quota is_quota
    rw [moveNext_at_letter (dropWhile_word blanks letters) plain, ← List.cons_append, behind]
    exact ⟨_, if_pos is_quota⟩

/-- Every line has a longest front that satisfies a test. -/
theorem front_tail (keep : UInt8 → Bool) (line : Bytes) :
    ∃ front tail, line = front ++ tail ∧ (∀ c ∈ front, keep c = true) ∧
      ∀ c, tail.head? = some c → keep c = false := by
  refine ⟨line.takeWhile keep, line.dropWhile keep, List.takeWhile_append_dropWhile.symm,
    fun c => List.mem_takeWhile_imp, fun c first => ?_⟩
  have stopped := List.head?_dropWhile_not keep line
  rw [first] at stopped
  exact stopped

/-- Every line ends, begins with a token, or is broken. -/
theorem line_cases (blank : UInt8 → Bool) (line : Bytes) :
    (∀ c ∈ line, blank c = true) ∨
    (∃ token tail, tail.length < line.length ∧
      (token = [] → EmptySection blank line) ∧
      ∀ tokens rest, Scans blank (letterOf blank) tail tokens rest →
        Scans blank (letterOf blank) line (token :: tokens) rest) ∨
    Broken blank (letterOf blank) line := by
  obtain ⟨gap, visible, rfl, blanks, stops⟩ := front_tail blank line
  cases visible with
  | nil =>
    rw [List.append_nil]
    exact .inl blanks
  | cons c rest =>
    right
    by_cases opens : isQuota c = true
    · by_cases closed : c ∈ rest
      · obtain ⟨inside, tail, rfl, plain⟩ := List.eq_append_cons_of_mem closed
        refine .inl ⟨inside, tail, ?_, ?_, fun tokens left => .quoted blanks opens plain⟩
        · simp only [List.length_append, List.length_cons]
          omega
        · rintro rfl
          exact ⟨gap, c, tail, blanks, opens, rfl⟩
      · exact .inr (.unclosed blanks opens closed)
    · have first : letterOf blank c = true := by
        rw [letterOf, stops c rfl, Bool.eq_false_iff.mpr opens]
        rfl
      obtain ⟨word, tail, split, letters, ends⟩ := front_tail (letterOf blank) (c :: rest)
      have nonempty : word ≠ [] := by
        rintro rfl
        have none := ends c (by rw [← List.nil_append tail, ← split]; rfl)
        rw [first] at none
        cases none
      rw [split]
      by_cases inner : ∃ d more, tail = d :: more ∧ isQuota d = true
      · obtain ⟨d, more, rfl, is_quota⟩ := inner
        exact .inr (.inner blanks nonempty letters is_quota)
      · have boundary : ∀ d, tail.head? = some d → blank d = true := by
          intro d found
          have not_letter := ends d found
          obtain ⟨more, rfl⟩ := List.head?_eq_some_iff.mp found
          have not_quota : isQuota d = false :=
            Bool.eq_false_iff.mpr fun is_quota => inner ⟨d, more, rfl, is_quota⟩
          rw [letterOf, not_quota, Bool.not_false, Bool.and_true] at not_letter
          simpa using not_letter
        refine .inl ⟨word, tail, ?_, fun empty => absurd empty nonempty, fun tokens left =>
          .word blanks nonempty letters boundary⟩
        have positive := List.length_pos_iff.mpr nonempty
        simp only [List.length_append]
        omega

/-- Reading a line passes tokens that are not empty, and then it meets the end, an
empty section or something broken. -/
theorem scan_outcome (blank : UInt8 → Bool) (line : Bytes) :
    ∃ tokens rest, Scans blank (letterOf blank) line tokens rest ∧ [] ∉ tokens ∧
      (((∀ c ∈ rest, blank c = true) ∨ EmptySection blank rest) ∨
        Broken blank (letterOf blank) rest) := by
  induction length : line.length using Nat.strongRecOn generalizing line with
  | _ size inductionHypothesis =>
    obtain blanks | ⟨token, tail, shorter, empty, continued⟩ | broken := line_cases blank line
    · exact ⟨[], line, .stop line, List.not_mem_nil, .inl (.inl blanks)⟩
    · by_cases ends : token = []
      · exact ⟨[], line, .stop line, List.not_mem_nil, .inl (.inr (empty ends))⟩
      · obtain ⟨tokens, rest, scans, nonempty, outcome⟩ :=
          inductionHypothesis _ (length ▸ shorter) tail rfl
        refine ⟨token :: tokens, rest, continued tokens rest scans, ?_, outcome⟩
        rw [List.mem_cons, not_or]
        exact ⟨Ne.symm ends, nonempty⟩
    · exact ⟨[], line, .stop line, List.not_mem_nil, .inr broken⟩

end Moves

section Reading

variable (quotes : ∀ c, isQuota c = true → blank c = false)
include quotes

/-- A token is read where one is scanned. -/
theorem Scans.moveNext {line token rest : Bytes} {tokens : List Bytes}
    (scans : Scans blank (letterOf blank) line (token :: tokens) rest) (value : Bytes) :
    ∃ tail, Tokenizer.moveNext blank ⟨value, line⟩ = .ok ⟨token, tail⟩ ∧
      tail.length < line.length ∧ Scans blank (letterOf blank) tail tokens rest := by
  cases scans with
  | word blanks nonempty letters boundary scans =>
    refine ⟨_, moveNext_word blanks nonempty letters boundary quotes, ?_, scans⟩
    have positive := List.length_pos_iff.mpr nonempty
    simp only [List.length_append]
    omega
  | quoted blanks opens plain scans =>
    refine ⟨_, moveNext_quoted blanks opens plain quotes, ?_, scans⟩
    simp only [List.length_append, List.length_cons]
    omega

/-- The tokens of a line continue those of its front. -/
theorem Splits.continues {line rest : Bytes} {tokens front : List Bytes}
    (splits : Splits blank (letterOf blank) line tokens)
    (scans : Scans blank (letterOf blank) line front rest) :
    ∃ more, tokens = front ++ more ∧ Splits blank (letterOf blank) rest more := by
  induction front generalizing line tokens with
  | nil =>
    cases scans
    exact ⟨tokens, rfl, splits⟩
  | cons token front inductionHypothesis =>
    obtain ⟨tail, moved, shorter, later⟩ := scans.moveNext quotes []
    obtain ⟨gap, whole, blanks⟩ := splits
    cases tokens with
    | nil =>
      cases whole
      rw [moveNext_gap blanks] at moved
      cases moved
      exact absurd shorter (Nat.lt_irrefl _)
    | cons other tokens =>
      obtain ⟨behind, other_moved, _, others⟩ := whole.moveNext quotes []
      cases moved.symm.trans other_moved
      obtain ⟨more, rfl, splits⟩ := inductionHypothesis ⟨gap, others, blanks⟩ later
      exact ⟨more, rfl, splits⟩

/-- A line has its tokens in one way only. -/
theorem Splits.unique {line : Bytes} {tokens others : List Bytes}
    (splits : Splits blank (letterOf blank) line tokens)
    (other : Splits blank (letterOf blank) line others) : tokens = others := by
  obtain ⟨gap, scans, blanks⟩ := other
  obtain ⟨more, rfl, rest, left, _⟩ := splits.continues quotes scans
  cases more with
  | nil => exact List.append_nil others
  | cons token more =>
    obtain ⟨tail, moved, shorter, _⟩ := left.moveNext quotes []
    rw [moveNext_gap blanks] at moved
    cases moved
    exact absurd shorter (Nat.lt_irrefl _)

/-- What is left of a line that splits is not broken. -/
theorem Splits.not_broken {line : Bytes} {tokens : List Bytes}
    (splits : Splits blank (letterOf blank) line tokens) :
    ¬ Broken blank (letterOf blank) line := by
  intro broken
  obtain ⟨st, refused⟩ := broken.moveNext quotes []
  obtain ⟨gap, scans, blanks⟩ := splits
  cases tokens with
  | nil =>
    cases scans
    cases (moveNext_gap blanks).symm.trans refused
  | cons token tokens =>
    obtain ⟨tail, moved, _⟩ := scans.moveNext quotes []
    cases moved.symm.trans refused

/-- Reading goes on behind the tokens that are scanned, if none of them is empty. -/
theorem Scans.readAll {line rest : Bytes} {tokens : List Bytes}
    (scans : Scans blank (letterOf blank) line tokens rest) (nonempty : [] ∉ tokens)
    (value : Bytes) :
    ∃ last, Tokenizer.readAll blank ⟨value, line⟩ =
      match Tokenizer.readAll blank ⟨last, rest⟩ with
      | .error st => .error st
      | .ok args => .ok (tokens ++ args) := by
  induction tokens generalizing line value with
  | nil =>
    cases scans
    refine ⟨value, ?_⟩
    cases Tokenizer.readAll blank ⟨value, rest⟩ <;> rfl
  | cons token tokens inductionHypothesis =>
    rw [List.mem_cons, not_or] at nonempty
    obtain ⟨tail, moved, _, later⟩ := scans.moveNext quotes value
    obtain ⟨last, read⟩ := inductionHypothesis later nonempty.2 token
    refine ⟨last, ?_⟩
    rw [Tokenizer.readAll]
    split
    next st refused => cases moved.symm.trans refused
    next next found =>
      cases moved.symm.trans found
      rw [dif_neg (Ne.symm nonempty.1), read]
      cases Tokenizer.readAll blank ⟨last, rest⟩ <;> rfl

/-- Reading stops at the end of the line and at an empty section. -/
theorem readAll_stops {line : Bytes}
    (stops : (∀ c ∈ line, blank c = true) ∨ EmptySection blank line) (value : Bytes) :
    Tokenizer.readAll blank ⟨value, line⟩ = .ok [] := by
  have moved : ∃ tail, Tokenizer.moveNext blank ⟨value, line⟩ = .ok ⟨[], tail⟩ := by
    obtain blanks | ⟨gap, quota, tail, blanks, opens, rfl⟩ := stops
    · exact ⟨line, moveNext_gap blanks⟩
    · exact ⟨tail, moveNext_quoted blanks opens List.not_mem_nil quotes⟩
  obtain ⟨tail, moved⟩ := moved
  rw [Tokenizer.readAll]
  split
  next st refused => cases moved.symm.trans refused
  next next found =>
    cases moved.symm.trans found
    rw [dif_pos rfl]

/-- A broken line is refused. -/
theorem Broken.readAll {line : Bytes} (broken : Broken blank (letterOf blank) line)
    (value : Bytes) : ∃ st, Tokenizer.readAll blank ⟨value, line⟩ = .error st := by
  obtain ⟨st, refused⟩ := broken.moveNext quotes value
  refine ⟨st, ?_⟩
  rw [Tokenizer.readAll]
  split
  next other found =>
    cases refused.symm.trans found
    rfl
  next next moved => cases refused.symm.trans moved

/-- The arguments that are read. -/
theorem readAll_ok {line : Bytes} {args : List Bytes} {value : Bytes}
    (read : Tokenizer.readAll blank ⟨value, line⟩ = .ok args) :
    ∃ rest, Scans blank (letterOf blank) line args rest ∧ [] ∉ args ∧
      ((∀ c ∈ rest, blank c = true) ∨ EmptySection blank rest) := by
  obtain ⟨tokens, rest, scans, nonempty, stops | broken⟩ := scan_outcome blank line
  · obtain ⟨last, found⟩ := scans.readAll quotes nonempty value
    rw [readAll_stops quotes stops, read] at found
    have same : args = tokens := (Except.ok.inj found).trans (List.append_nil tokens)
    rw [same]
    exact ⟨rest, scans, nonempty, stops⟩
  · obtain ⟨last, found⟩ := scans.readAll quotes nonempty value
    obtain ⟨st, refused⟩ := broken.readAll quotes last
    rw [refused, read] at found
    cases found

end Reading

section Widening

/-- A blank in front of a line changes nothing. -/
theorem Splits.cons_blank {line : Bytes} {tokens : List Bytes} {c : UInt8}
    (is_blank : blank c = true) (splits : Splits blank letter line tokens) :
    Splits blank letter (c :: line) tokens := by
  have longer {gap : Bytes} (blanks : ∀ d ∈ gap, blank d = true) :
      ∀ d ∈ c :: gap, blank d = true := List.forall_mem_cons.mpr ⟨is_blank, blanks⟩
  obtain ⟨rest, scans, blanks⟩ := splits
  cases scans with
  | stop => exact ⟨c :: line, .stop _, longer blanks⟩
  | word gap nonempty letters boundary scans =>
    exact ⟨rest, .word (longer gap) nonempty letters boundary scans, blanks⟩
  | quoted gap opens plain scans =>
    exact ⟨rest, .quoted (longer gap) opens plain scans, blanks⟩

/-- A letter in front of a line begins a word or continues the one that is there. -/
theorem Splits.cons_letter {line : Bytes} {tokens : List Bytes} {c : UInt8}
    (is_letter : letterOf blank c = true)
    (first : ∀ d, line.head? = some d → blank d = true ∨ letterOf blank d = true)
    (splits : Splits blank (letterOf blank) line tokens) :
    ∃ others, Splits blank (letterOf blank) (c :: line) others := by
  obtain ⟨rest, scans, blanks⟩ := splits
  have no_gap : ∀ d ∈ ([] : Bytes), blank d = true := fun d member => absurd member List.not_mem_nil
  by_cases boundary : ∀ d, line.head? = some d → blank d = true
  · have scanned : Scans blank (letterOf blank) ([] ++ ([c] ++ line)) ([c] :: tokens) rest :=
      .word no_gap (List.cons_ne_nil c []) (by simpa using is_letter) boundary scans
    exact ⟨_, rest, scanned, blanks⟩
  · -- a line that begins with a letter begins with a word, and without a gap
    push Not at boundary
    obtain ⟨d, begins, visible⟩ := boundary
    have starts := (first d begins).resolve_left visible
    obtain ⟨more, rfl⟩ := List.head?_eq_some_iff.mp begins
    generalize whole : d :: more = line at scans
    have ungapped {gap tail : Bytes} (gap_blanks : ∀ e ∈ gap, blank e = true)
        (split : d :: more = gap ++ tail) : gap = [] := by
      cases gap with
      | nil => rfl
      | cons e gap =>
        obtain ⟨rfl, _⟩ := List.cons.inj split
        exact absurd (gap_blanks d List.mem_cons_self) visible
    cases scans with
    | stop => exact absurd (blanks d (whole ▸ List.mem_cons_self)) visible
    | @word gap word tail _ tokens gap_blanks nonempty letters ends scans =>
      obtain rfl := ungapped gap_blanks whole
      have scanned : Scans blank (letterOf blank) ([] ++ (c :: word ++ tail))
          ((c :: word) :: tokens) rest :=
        .word no_gap (List.cons_ne_nil c word) (List.forall_mem_cons.mpr ⟨is_letter, letters⟩)
          ends scans
      exact ⟨_, rest, scanned, blanks⟩
    | @quoted gap inside tail _ quota tokens gap_blanks opens plain scans =>
      obtain rfl := ungapped gap_blanks whole
      obtain ⟨rfl, _⟩ := List.cons.inj whole
      rw [letterOf_quota opens] at starts
      cases starts

end Widening

/-- The byte is negative as a plain character. -/
def high (c : UInt8) : Bool := 0x80 ≤ c

/-- Every byte, as the tokenizer sees it and as the plain reading does. -/
theorem byte_kinds : ∀ c,
    (isQuota c = true → blankChar c = false ∧ plainBlank c = false ∧ high c = false) ∧
      (plainBlank c = true → blankChar c = true ∧ high c = false) ∧
      (blankChar c = true → high c = false → plainBlank c = true) ∧
      (letterOf blankChar c = true → letterOf plainBlank c = true ∧ high c = false) ∧
      (letterOf plainBlank c = true → blankChar c = true ∨ letterOf blankChar c = true) :=
  every_byte (by decide +kernel)

/-- A quote is no blank, signed or not. -/
theorem quota_visible (c : UInt8) (quota : isQuota c = true) : blankChar c = false :=
  ((byte_kinds c).1 quota).1

/-- A quotation mark is no blank. -/
theorem quota_plain (c : UInt8) (quota : isQuota c = true) : plainBlank c = false :=
  ((byte_kinds c).1 quota).2.1

/-- A quotation mark is in ASCII. -/
theorem high_of_quota (c : UInt8) (quota : isQuota c = true) : high c = false :=
  ((byte_kinds c).1 quota).2.2

/-- The tokenizer takes more bytes for blanks than the plain reading, and fewer for letters. -/
theorem blankChar_of_plain (c : UInt8) (plain : plainBlank c = true) : blankChar c = true :=
  ((byte_kinds c).2.1 plain).1

/-- A plain blank is in ASCII. -/
theorem high_of_plain (c : UInt8) (plain : plainBlank c = true) : high c = false :=
  ((byte_kinds c).2.1 plain).2

/-- A blank in ASCII is a plain one. -/
theorem plain_of_blank (c : UInt8) (blank : blankChar c = true) (low : high c = false) :
    plainBlank c = true :=
  (byte_kinds c).2.2.1 blank low

/-- What is a letter with all blanks is one with the plain ones. -/
theorem letterOf_plain (c : UInt8) (letter : letterOf blankChar c = true) :
    letterOf plainBlank c = true :=
  ((byte_kinds c).2.2.2.1 letter).1

/-- A letter is in ASCII. -/
theorem high_of_letter (c : UInt8) (letter : letterOf blankChar c = true) : high c = false :=
  ((byte_kinds c).2.2.2.1 letter).2

/-- What can stand in a word for unsigned bytes is a letter or a blank for signed ones. -/
theorem letter_or_blank (c : UInt8) (letter : letterOf plainBlank c = true) :
    blankChar c = true ∨ letterOf blankChar c = true :=
  (byte_kinds c).2.2.2.2 letter

/-- A line that is well formed for unsigned bytes is well formed for the tokenizer.

Proof: by induction on the tokens. A word falls apart where it has bytes that are
blanks for the tokenizer; characters are put in front of the rest of the line one
after the other. -/
theorem Splits.signed {line : Bytes} {tokens : List Bytes}
    (splits : Splits plainBlank (letterOf plainBlank) line tokens) :
    ∃ others, Splits blankChar (letterOf blankChar) line others := by
  have gaps {gap line : Bytes} (blanks : ∀ c ∈ gap, plainBlank c = true)
      (splits : ∃ others, Splits blankChar (letterOf blankChar) line others) :
      ∃ others, Splits blankChar (letterOf blankChar) (gap ++ line) others := by
    induction gap with
    | nil => exact splits
    | cons c gap inductionHypothesis =>
      obtain ⟨first, later⟩ := List.forall_mem_cons.mp blanks
      obtain ⟨others, splits⟩ := inductionHypothesis later
      exact ⟨others, splits.cons_blank (blankChar_of_plain c first)⟩
  have words {word tail : Bytes} (letters : ∀ c ∈ word, letterOf plainBlank c = true)
      (boundary : ∀ c, tail.head? = some c → plainBlank c = true)
      (splits : ∃ others, Splits blankChar (letterOf blankChar) tail others) :
      (∃ others, Splits blankChar (letterOf blankChar) (word ++ tail) others) ∧
        ∀ d, (word ++ tail).head? = some d → blankChar d = true ∨ letterOf blankChar d = true := by
    induction word with
    | nil => exact ⟨splits, fun d first => .inl (blankChar_of_plain d (boundary d first))⟩
    | cons c word inductionHypothesis =>
      obtain ⟨first, later⟩ := List.forall_mem_cons.mp letters
      obtain ⟨⟨others, splits⟩, heads⟩ := inductionHypothesis later
      refine ⟨?_, ?_⟩
      · obtain is_blank | is_letter := letter_or_blank c first
        · exact ⟨others, splits.cons_blank is_blank⟩
        · exact splits.cons_letter is_letter heads
      · rintro d ⟨⟩
        exact letter_or_blank c first
  obtain ⟨rest, scans, blanks⟩ := splits
  induction scans with
  | stop line =>
    exact ⟨[], line, .stop line, fun c member => blankChar_of_plain c (blanks c member)⟩
  | word gap nonempty letters boundary _ inductionHypothesis =>
    exact gaps gap (words letters boundary (inductionHypothesis blanks)).1
  | quoted gap opens plain _ inductionHypothesis =>
    obtain ⟨others, left, scans, ends⟩ := inductionHypothesis blanks
    have closed : Scans blankChar (letterOf blankChar) _ _ left := .quoted
      (fun c member => blankChar_of_plain c (gap c member)) opens plain scans
    exact ⟨_, left, closed, ends⟩

/-- How many bytes of a string are negative as characters. -/
def highs (s : Bytes) : Nat := s.countP high

/-- The characters outside of ASCII are counted part by part. -/
theorem highs_append (s more : Bytes) : highs (s ++ more) = highs s + highs more :=
  List.countP_append

theorem highs_cons (c : UInt8) (s : Bytes) :
    highs (c :: s) = highs s + if high c then 1 else 0 := List.countP_cons

theorem highs_eq_zero {s : Bytes} : highs s = 0 ↔ ∀ c ∈ s, high c = false := by
  simp only [highs, List.countP_eq_zero, Bool.not_eq_true]

/-- Quotation marks do not count. -/
theorem highs_quoted {quota : UInt8} (opens : isQuota quota = true) (inside tail : Bytes) :
    highs (quota :: (inside ++ quota :: tail)) = highs inside + highs tail := by
  rw [highs_cons, highs_append, highs_cons, high_of_quota quota opens]
  rfl

/-- The tokens of the tokenizer have no more of these bytes than its line. -/
theorem Scans.highs_le {line rest : Bytes} {tokens : List Bytes}
    (scans : Scans blankChar (letterOf blankChar) line tokens rest) :
    highs tokens.flatten + highs rest ≤ highs line := by
  induction scans with
  | stop line => exact Nat.le_of_eq (Nat.zero_add _)
  | word _ _ _ _ _ inductionHypothesis =>
    rw [List.flatten_cons, highs_append, highs_append, highs_append]
    omega
  | quoted _ opens _ _ inductionHypothesis =>
    rw [List.flatten_cons, highs_append, highs_append, highs_quoted opens]
    omega

/-- For unsigned bytes the tokens have all of them. -/
theorem Splits.highs_eq {line : Bytes} {tokens : List Bytes}
    (splits : Splits plainBlank (letterOf plainBlank) line tokens) :
    highs line = highs tokens.flatten := by
  have gaps {gap : Bytes} (blanks : ∀ c ∈ gap, plainBlank c = true) : highs gap = 0 :=
    highs_eq_zero.mpr fun c member => high_of_plain c (blanks c member)
  obtain ⟨rest, scans, blanks⟩ := splits
  induction scans with
  | stop line => exact gaps blanks
  | word gap _ _ _ _ inductionHypothesis =>
    rw [List.flatten_cons, highs_append, highs_append, highs_append, gaps gap,
      inductionHypothesis blanks, Nat.zero_add]
  | quoted gap opens _ _ inductionHypothesis =>
    rw [List.flatten_cons, highs_append, highs_append, highs_quoted opens, gaps gap,
      inductionHypothesis blanks, Nat.zero_add]

/-- The first byte of a line with plain gaps and words. -/
theorem Scans.head_plain {line rest : Bytes} {tokens : List Bytes}
    (scans : Scans plainBlank (letterOf blankChar) line tokens rest) (none : highs rest = 0)
    {c : UInt8} (first : line.head? = some c) : high c = false := by
  have member : c ∈ line := List.mem_of_mem_head? first
  cases scans with
  | stop => exact highs_eq_zero.mp none c member
  | @word gap word tail _ _ blanks nonempty letters _ _ =>
    obtain ⟨d, others, rfl⟩ := List.exists_cons_of_ne_nil nonempty
    cases gap with
    | nil =>
      cases first
      exact high_of_letter c (letters c List.mem_cons_self)
    | cons e gap =>
      cases first
      exact high_of_plain c (blanks c List.mem_cons_self)
  | @quoted gap inside tail _ quota _ blanks opens _ _ =>
    cases gap with
    | nil =>
      cases first
      exact high_of_quota c opens
    | cons e gap =>
      cases first
      exact high_of_plain c (blanks c List.mem_cons_self)

/-- If all of these bytes are in the tokens, the tokenizer took none of them for a
blank. -/
theorem Scans.plain {line rest : Bytes} {tokens : List Bytes}
    (scans : Scans blankChar (letterOf blankChar) line tokens rest)
    (all : highs line ≤ highs tokens.flatten) :
    Scans plainBlank (letterOf blankChar) line tokens rest ∧ highs rest = 0 := by
  have gaps {gap : Bytes} (blanks : ∀ c ∈ gap, blankChar c = true) (none : highs gap = 0) :
      ∀ c ∈ gap, plainBlank c = true := fun c member =>
    plain_of_blank c (blanks c member) (highs_eq_zero.mp none c member)
  induction scans with
  | stop line =>
    have none : highs line = 0 := Nat.le_zero.mp all
    exact ⟨.stop line, none⟩
  | @word gap word tail rest tokens blanks nonempty letters boundary scans inductionHypothesis =>
    have bound := scans.highs_le
    rw [List.flatten_cons, highs_append, highs_append, highs_append] at all
    obtain ⟨plain, none⟩ := inductionHypothesis (by omega)
    refine ⟨.word (gaps blanks (by omega)) nonempty letters (fun c first => ?_) plain, none⟩
    exact plain_of_blank c (boundary c first) (plain.head_plain none first)
  | @quoted gap inside tail rest quota tokens blanks opens unquoted scans inductionHypothesis =>
    have bound := scans.highs_le
    rw [List.flatten_cons, highs_append, highs_append, highs_quoted opens] at all
    obtain ⟨plain, none⟩ := inductionHypothesis (by omega)
    exact ⟨.quoted (gaps blanks (by omega)) opens unquoted plain, none⟩

/-- The line is well formed: every section is closed, and no word has a quote in it. -/
def WellFormed (line : Bytes) : Prop :=
  ∃ tokens, Splits plainBlank (letterOf plainBlank) line tokens

/-- A line is accepted if and only if it is well formed, and then all its tokens are
returned. -/
def TokenizedExactly (line : Bytes) : Prop :=
  ((∃ args, parseArgLine line = .ok args) ↔ WellFormed line) ∧
    ∀ args, parseArgLine line = .ok args →
      ∀ tokens, Splits plainBlank (letterOf plainBlank) line tokens → args = tokens

/-- The line has no negative character in a word, and no empty section. -/
def Clean (line : Bytes) : Prop :=
  ∃ tokens, Splits plainBlank (letterOf blankChar) line tokens ∧ [] ∉ tokens

/-- Something in the line is broken before its first empty section, where negative
characters are taken for blanks. -/
def BrokenEarly (line : Bytes) : Prop :=
  ∃ tokens rest, Scans blankChar (letterOf blankChar) line tokens rest ∧ [] ∉ tokens ∧
    Broken blankChar (letterOf blankChar) rest

/-- The tokenizer is right about a clean line. -/
theorem Clean.exactly {line : Bytes} (clean : Clean line) : TokenizedExactly line := by
  obtain ⟨tokens, ⟨gap, scans, blanks⟩, nonempty⟩ := clean
  have plain : Splits plainBlank (letterOf plainBlank) line tokens :=
    ⟨gap, scans.mono (fun _ is_blank => is_blank) letterOf_plain, blanks⟩
  have signed := scans.mono blankChar_of_plain (fun _ is_letter => is_letter)
  obtain ⟨last, read⟩ := signed.readAll quota_visible nonempty []
  have ends : ∀ c ∈ gap, blankChar c = true := fun c member =>
    blankChar_of_plain c (blanks c member)
  rw [readAll_stops quota_visible (.inl ends)] at read
  have returned : parseArgLine line = .ok tokens :=
    read.trans (congrArg Except.ok (List.append_nil tokens))
  refine ⟨iff_of_true ⟨tokens, returned⟩ ⟨tokens, plain⟩, fun args found others splits => ?_⟩
  cases returned.symm.trans found
  exact plain.unique quota_plain splits

/-- A line that is broken early is refused. -/
theorem BrokenEarly.refused {line : Bytes} (broken : BrokenEarly line) :
    ∃ st, parseArgLine line = .error st := by
  obtain ⟨tokens, rest, scans, nonempty, broken⟩ := broken
  obtain ⟨last, read⟩ := scans.readAll quota_visible nonempty []
  obtain ⟨st, refused⟩ := broken.readAll quota_visible last
  rw [refused] at read
  exact ⟨st, read⟩

/-- And it is not well formed. -/
theorem BrokenEarly.exactly {line : Bytes} (broken : BrokenEarly line) : TokenizedExactly line := by
  obtain ⟨st, failed⟩ := broken.refused
  obtain ⟨tokens, rest, scans, nonempty, broken⟩ := broken
  have malformed : ¬ WellFormed line := by
    rintro ⟨plain, splits⟩
    obtain ⟨others, signed⟩ := splits.signed
    obtain ⟨more, _, left⟩ := signed.continues quota_visible scans
    exact left.not_broken quota_visible broken
  refine ⟨iff_of_false ?_ malformed, fun args found => ?_⟩
  · rintro ⟨args, found⟩
    cases failed.symm.trans found
  · cases failed.symm.trans found

/-- If what is returned are the tokens of the line, the line is clean.

Proof: no byte that is negative as a character was taken for a blank, since the
tokens of the line have them all. So the tokenizer scanned the line as it is to be
read; and it did not stop at an empty section, which would be a token too. -/
theorem clean_of_tokens {line : Bytes} {tokens : List Bytes}
    (returned : parseArgLine line = .ok tokens)
    (splits : Splits plainBlank (letterOf plainBlank) line tokens) : Clean line := by
  obtain ⟨rest, scans, nonempty, stops⟩ := readAll_ok quota_visible returned
  obtain ⟨plain, none⟩ := scans.plain (Nat.le_of_eq splits.highs_eq)
  obtain blanks | ⟨gap, quota, tail, blanks, opens, rfl⟩ := stops
  · refine ⟨tokens, ⟨rest, plain, fun c member => ?_⟩, nonempty⟩
    exact plain_of_blank c (blanks c member) (highs_eq_zero.mp none c member)
  · have wider := plain.mono (fun _ is_blank => is_blank) letterOf_plain
    obtain ⟨more, same, left, ended, ends⟩ := splits.continues quota_plain wider
    obtain rfl : more = [] := List.append_right_eq_self.mp same.symm
    have visible := quota_plain quota opens
    rw [ends quota (by simp [ended.nothing])] at visible
    cases visible

/-- A line is taken apart exactly if it is clean, or broken before its first empty
section; and in no other case. -/
theorem tokenized_exactly_iff (line : Bytes) :
    TokenizedExactly line ↔ Clean line ∨ BrokenEarly line := by
  constructor
  · rintro ⟨accepted, same⟩
    cases read : parseArgLine line with
    | ok args =>
      obtain ⟨tokens, splits⟩ := accepted.mp ⟨args, read⟩
      obtain rfl := same args read tokens splits
      exact .inl (clean_of_tokens read splits)
    | error st =>
      obtain ⟨tokens, rest, scans, nonempty, stops | broken⟩ := scan_outcome blankChar line
      · obtain ⟨last, found⟩ := scans.readAll quota_visible nonempty []
        rw [readAll_stops quota_visible stops] at found
        cases read.symm.trans found
      · exact .inr ⟨tokens, rest, scans, nonempty, broken⟩
  · rintro (clean | broken)
    · exact clean.exactly
    · exact broken.exactly

/-- An empty section ends the line, and a word in UTF-8 is taken for blanks. -/
theorem tokens_lost :
    parseArgLine (text "'' a") = .ok [] ∧ ¬ TokenizedExactly (text "'' a") ∧
    parseArgLine [0xC3, 0xA9] = .ok [] ∧ ¬ TokenizedExactly [0xC3, 0xA9] := by
  have stopped : parseArgLine (text "'' a") = .ok [] :=
    readAll_stops quota_visible (.inr ⟨[], byte '\'', text " a", by simp, by decide, rfl⟩) []
  have skipped : parseArgLine [0xC3, 0xA9] = .ok [] :=
    readAll_stops quota_visible (.inl (by decide +kernel)) []
  refine ⟨stopped, ?_, skipped, ?_⟩
  · rintro ⟨_, same⟩
    have last : Scans plainBlank (letterOf plainBlank) ([byte ' '] ++ (text "a" ++ []))
        [text "a"] [] :=
      .word (by decide +kernel) (by decide +kernel) (by decide +kernel) (by simp) (.stop [])
    have whole : Scans plainBlank (letterOf plainBlank)
        ([] ++ byte '\'' :: ([] ++ byte '\'' :: ([byte ' '] ++ (text "a" ++ []))))
        [[], text "a"] [] := .quoted (by simp) (by decide) (by simp) last
    cases same [] stopped [[], text "a"] ⟨[], whole, by simp⟩
  · rintro ⟨_, same⟩
    have whole : Scans plainBlank (letterOf plainBlank) ([] ++ ([0xC3, 0xA9] ++ []))
        [[0xC3, 0xA9]] [] := .word (by simp) (by simp) (by decide +kernel) (by simp) (.stop [])
    cases same [] skipped [[0xC3, 0xA9]] ⟨[], whole, by simp⟩

end Cppboot.Args
