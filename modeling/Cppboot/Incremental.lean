import Mathlib.Data.List.Basic

/-!
# Decoders that resume where their input ran out

A decoder is called with its state and the input it has not yet consumed. It
either waits for more input, possibly having consumed some, or emits one result.
It is resumable when more input never changes what it already decided: a result
emitted on some input is emitted on every extension of it, and waiting first and
being called again is the same as being called once with the longer input.

For a resumable decoder the way in which input arrives does not matter. Called
until it waits after every chunk, it emits what it emits on the whole input
(`feed_flatten`); stopped at its first result, it emits that result on the whole
input (`first_exact`). A machine that consumes one symbol at a time is resumable
(`scan_resumable`).

What such a machine accepts is read off state by state: a state that picks one
symbol (`Picks`), and a state that collects a word up to a delimiter
(`Collects`), each say how accepted input begins.
-/

namespace Cppboot.Incremental

universe u v w
variable {α : Type u} {σ : Type v} {ρ : Type w}

/-- What one call of a decoder does, with the input it leaves unconsumed. -/
inductive Outcome (α : Type u) (σ : Type v) (ρ : Type w) where
  | wait (state : σ) (rest : List α)
  | emit (result : ρ) (state : σ) (rest : List α)

/-- Further input extends what a call leaves unconsumed and changes nothing else;
and every emitted result decreases a measure, so calls until the decoder waits
come to an end. -/
structure Resumable (step : σ → List α → Outcome α σ ρ) (measure : σ → List α → Nat) : Prop where
  emit_append : ∀ {state after : σ} {input rest : List α} {result : ρ} (more : List α),
    step state input = .emit result after rest →
    step state (input ++ more) = .emit result after (rest ++ more)
  wait_append : ∀ {state after : σ} {input rest : List α} (more : List α),
    step state input = .wait after rest → step state (input ++ more) = step after (rest ++ more)
  progress : ∀ {state after : σ} {input rest : List α} {result : ρ},
    step state input = .emit result after rest → measure after rest < measure state input

/-- Call the decoder until it waits, at most as often as the fuel allows. -/
def drainFuel (step : σ → List α → Outcome α σ ρ) : Nat → σ → List α → List ρ × σ × List α
  | 0, state, input => ([], state, input)
  | fuel + 1, state, input =>
    match step state input with
    | .wait after rest => ([], after, rest)
    | .emit result after rest =>
      let later := drainFuel step fuel after rest
      (result :: later.1, later.2)

/-- Call the decoder until it waits. The measure provides the fuel. -/
def drain (step : σ → List α → Outcome α σ ρ) (measure : σ → List α → Nat) (state : σ)
    (input : List α) : List ρ × σ × List α :=
  drainFuel step (measure state input + 1) state input

/-- Append each chunk to the unconsumed input and call until the decoder waits. -/
def feed (step : σ → List α → Outcome α σ ρ) (measure : σ → List α → Nat) :
    σ → List α → List (List α) → List ρ × σ × List α
  | state, input, [] => ([], state, input)
  | state, input, chunk :: chunks =>
    let drained := drain step measure state (input ++ chunk)
    let later := feed step measure drained.2.1 drained.2.2 chunks
    (drained.1 ++ later.1, later.2)

/-- The decoder waits here and consumes nothing. -/
def Quiet (step : σ → List α → Outcome α σ ρ) (state : σ) (input : List α) : Prop :=
  step state input = .wait state input

section Resume

variable {step : σ → List α → Outcome α σ ρ} {measure : σ → List α → Nat}

/-- Where a decoder has come to wait, it waits again. -/
theorem Resumable.waited (resumable : Resumable step measure) {state after : σ}
    {input rest : List α} (waits : step state input = .wait after rest) :
    Quiet step after rest := by
  have again := resumable.wait_append [] waits
  simp only [List.append_nil] at again
  exact again.symm.trans waits

/-- Fuel above the measure makes no difference. -/
theorem drainFuel_stable (resumable : Resumable step measure) (fuel other : Nat) (state : σ)
    (input : List α) (enough : measure state input < fuel)
    (enoughOther : measure state input < other) :
    drainFuel step fuel state input = drainFuel step other state input := by
  induction fuel generalizing other state input with
  | zero => omega
  | succ fuel inductionHypothesis =>
    cases other with
    | zero => omega
    | succ other =>
      cases called : step state input with
      | wait after rest => simp only [drainFuel, called]
      | emit result after rest =>
        have less := resumable.progress called
        simp only [drainFuel, called]
        rw [inductionHypothesis other after rest (by omega) (by omega)]

/-- Where the decoder waits, draining emits nothing. -/
theorem drain_wait {state after : σ} {input rest : List α}
    (waits : step state input = .wait after rest) :
    drain step measure state input = ([], after, rest) := by
  simp only [drain, drainFuel, waits]

/-- Where the decoder emits, draining emits that result and goes on. -/
theorem drain_emit (resumable : Resumable step measure) {state after : σ} {input rest : List α}
    {result : ρ} (emits : step state input = .emit result after rest) :
    drain step measure state input =
      (result :: (drain step measure after rest).1, (drain step measure after rest).2) := by
  have less := resumable.progress emits
  have stable := drainFuel_stable resumable (measure state input) (measure after rest + 1) after
    rest less (Nat.lt_succ_self _)
  conv => lhs; unfold drain
  simp only [drainFuel, emits, stable]
  rfl

/-- Draining ends where the decoder waits. -/
theorem drain_quiet (resumable : Resumable step measure) (state : σ) (input : List α) :
    Quiet step (drain step measure state input).2.1 (drain step measure state input).2.2 := by
  induction size : measure state input using Nat.strongRecOn generalizing state input with
  | _ size inductionHypothesis =>
    cases called : step state input with
    | wait after rest =>
      rw [drain_wait called]
      exact resumable.waited called
    | emit result after rest =>
      rw [drain_emit resumable called]
      exact inductionHypothesis _ (size ▸ resumable.progress called) after rest rfl

/-- Draining longer input is draining its front and then the remainder.

Induct on the measure. If the first call waits, resuming it is the call on the
longer input; if it emits, both sides begin with that result. -/
theorem drain_append (resumable : Resumable step measure) (state : σ) (input more : List α) :
    drain step measure state (input ++ more) =
      let front := drain step measure state input
      let later := drain step measure front.2.1 (front.2.2 ++ more)
      (front.1 ++ later.1, later.2) := by
  induction size : measure state input using Nat.strongRecOn generalizing state input with
  | _ size inductionHypothesis =>
    cases called : step state input with
    | wait after rest =>
      have resumed := resumable.wait_append more called
      rw [drain_wait called]
      simp only [List.nil_append]
      cases continued : step after (rest ++ more) with
      | wait final left =>
        rw [drain_wait continued, drain_wait (resumed.trans continued)]
      | emit result final left =>
        rw [drain_emit resumable continued, drain_emit resumable (resumed.trans continued)]
    | emit result after rest =>
      rw [drain_emit resumable called, drain_emit resumable (resumable.emit_append more called),
        inductionHypothesis _ (size ▸ resumable.progress called) after rest rfl]
      simp only [List.cons_append]

/-- The chunking of the input does not matter: feeding chunks one by one, calling
until the decoder waits after each, gives the results, the state and the
unconsumed input of draining the whole input at once. -/
theorem feed_flatten (resumable : Resumable step measure) (state : σ) (input : List α)
    (chunks : List (List α)) (quiet : Quiet step state input) :
    feed step measure state input chunks = drain step measure state (input ++ chunks.flatten) := by
  induction chunks generalizing state input with
  | nil =>
    rw [List.flatten_nil, List.append_nil, drain_wait quiet]
    rfl
  | cons chunk chunks inductionHypothesis =>
    simp only [feed, List.flatten_cons, ← List.append_assoc]
    rw [drain_append resumable state (input ++ chunk) chunks.flatten,
      inductionHypothesis _ _ (drain_quiet resumable state (input ++ chunk))]

end Resume

/-- How feeding chunks up to the first result ends: still waiting, or with that
result, the input left over in its chunk and the chunks not yet fed. -/
inductive First (α : Type u) (σ : Type v) (ρ : Type w) where
  | pending (state : σ) (rest : List α)
  | found (result : ρ) (state : σ) (rest : List α) (unread : List (List α))

/-- Feed chunks, calling the decoder once for each, up to its first result. -/
def first (step : σ → List α → Outcome α σ ρ) : σ → List α → List (List α) → First α σ ρ
  | state, input, [] => .pending state input
  | state, input, chunk :: chunks =>
    match step state (input ++ chunk) with
    | .wait after rest => first step after rest chunks
    | .emit result after rest => .found result after rest chunks

/-- The call on the whole input that a first result corresponds to. -/
def First.whole : First α σ ρ → Outcome α σ ρ
  | .pending state rest => .wait state rest
  | .found result state rest unread => .emit result state (rest ++ unread.flatten)

/-- Stopping at the first result is a single call on the whole input: the same
result, or none, the same state, and the same input left unconsumed once the
chunks that were not fed are counted to it. -/
theorem first_exact {step : σ → List α → Outcome α σ ρ} {measure : σ → List α → Nat}
    (resumable : Resumable step measure) (state : σ) (input : List α) (chunks : List (List α))
    (quiet : Quiet step state input) :
    step state (input ++ chunks.flatten) = (first step state input chunks).whole := by
  induction chunks generalizing state input with
  | nil =>
    rw [List.flatten_nil, List.append_nil]
    exact quiet
  | cons chunk chunks inductionHypothesis =>
    simp only [List.flatten_cons, ← List.append_assoc, first]
    cases called : step state (input ++ chunk) with
    | wait after rest =>
      rw [resumable.wait_append chunks.flatten called]
      exact inductionHypothesis after rest (resumable.waited called)
    | emit result after rest => exact resumable.emit_append chunks.flatten called

/-- A machine that consumes one symbol goes on or stops with a result. -/
inductive Verdict (σ : Type v) (ρ : Type w) where
  | next (state : σ)
  | stop (result : ρ) (state : σ)

/-- Let the machine consume symbols until it stops or the input ends. -/
def scan (machine : σ → α → Verdict σ ρ) : σ → List α → Outcome α σ ρ
  | state, [] => .wait state []
  | state, symbol :: symbols =>
    match machine state symbol with
    | .next after => scan machine after symbols
    | .stop result after => .emit result after symbols

section Machine

variable {machine : σ → α → Verdict σ ρ}

/-- A machine that has not stopped has consumed its whole input. -/
theorem scan_wait {state after : σ} {input rest : List α}
    (waits : scan machine state input = .wait after rest) : rest = [] := by
  induction input generalizing state with
  | nil =>
    simp only [scan, Outcome.wait.injEq] at waits
    exact waits.2.symm
  | cons symbol symbols inductionHypothesis =>
    cases judged : machine state symbol with
    | next middle => exact inductionHypothesis (by simpa [scan, judged] using waits)
    | stop result middle => simp [scan, judged] at waits

/-- A machine that stops has consumed at least one symbol. -/
theorem scan_emit {state after : σ} {input rest : List α} {result : ρ}
    (emits : scan machine state input = .emit result after rest) :
    ∃ front, front ≠ [] ∧ input = front ++ rest := by
  induction input generalizing state with
  | nil => simp [scan] at emits
  | cons symbol symbols inductionHypothesis =>
    cases judged : machine state symbol with
    | next middle =>
      obtain ⟨front, _, split⟩ := inductionHypothesis (by simpa [scan, judged] using emits)
      exact ⟨symbol :: front, by simp, by simp [split]⟩
    | stop stopped middle =>
      have same : symbols = rest := by
        simp only [scan, judged, Outcome.emit.injEq] at emits
        exact emits.2.2
      exact ⟨[symbol], by simp, by simp [same]⟩

/-- Scanning the rest of the input continues from the state reached on its
front, unless the machine stopped there. -/
theorem scan_append (state : σ) (input more : List α) :
    scan machine state (input ++ more) =
      match scan machine state input with
      | .wait after _ => scan machine after more
      | .emit result after rest => .emit result after (rest ++ more) := by
  induction input generalizing state with
  | nil => rfl
  | cons symbol symbols inductionHypothesis =>
    cases judged : machine state symbol with
    | next middle => simp only [List.cons_append, scan, judged, inductionHypothesis]
    | stop result middle => simp only [List.cons_append, scan, judged]

/-- A symbol machine is resumable; the length of its input measures progress. -/
theorem scan_resumable (machine : σ → α → Verdict σ ρ) :
    Resumable (scan machine) (fun _ input => input.length) where
  emit_append more emits := by rw [scan_append, emits]
  wait_append more waits := by rw [scan_append, waits, scan_wait waits, List.nil_append]
  progress emits := by
    obtain ⟨front, nonempty, split⟩ := scan_emit emits
    have positive := List.length_pos_iff.mpr nonempty
    simp only [split, List.length_append]
    omega

/-- The first result of a symbol machine falls inside a chunk: the chunks before
it are consumed whole, it consumes a nonempty front of its own chunk, and the
chunks after it are not read. -/
theorem first_scan_found {state after : σ} {chunks unread : List (List α)} {rest : List α}
    {result : ρ} (found : first (scan machine) state [] chunks = .found result after rest unread) :
    ∃ fed front, front ≠ [] ∧ chunks = fed ++ (front ++ rest) :: unread := by
  induction chunks generalizing state with
  | nil => simp [first] at found
  | cons chunk chunks inductionHypothesis =>
    simp only [first, List.nil_append] at found
    cases called : scan machine state chunk with
    | wait middle left =>
      rw [called, scan_wait called] at found
      obtain ⟨fed, front, nonempty, split⟩ := inductionHypothesis found
      exact ⟨chunk :: fed, front, nonempty, by simp [split]⟩
    | emit emitted middle left =>
      simp only [called, First.found.injEq] at found
      obtain ⟨rfl, rfl, rfl, rfl⟩ := found
      obtain ⟨front, nonempty, split⟩ := scan_emit called
      exact ⟨[], front, nonempty, by simp [split]⟩

/-- In this state the machine goes on with the symbols that belong to a class,
and on any other it stops with a result that is not the wanted one. -/
structure Picks (machine : σ → α → Verdict σ ρ) (wanted : ρ) (keep : α → Prop) (state : σ)
    (after : α → σ) : Prop where
  keeps : ∀ symbol, keep symbol → machine state symbol = .next (after symbol)
  refuses : ∀ symbol, ¬ keep symbol →
    ∃ result final, machine state symbol = .stop result final ∧ result ≠ wanted

/-- Input that leads to the wanted result from such a state begins with a symbol
of the class. -/
theorem Picks.inv {wanted : ρ} {keep : α → Prop} {state final : σ} {after : α → σ}
    (picks : Picks machine wanted keep state after) {input rest : List α}
    (emits : scan machine state input = .emit wanted final rest) :
    ∃ symbol more, input = symbol :: more ∧ keep symbol ∧
      scan machine (after symbol) more = .emit wanted final rest := by
  cases input with
  | nil => cases emits
  | cons symbol more =>
    by_cases kept : keep symbol
    · refine ⟨symbol, more, rfl, kept, ?_⟩
      simpa only [scan, picks.keeps symbol kept] using emits
    · obtain ⟨result, stopped, refused, other⟩ := picks.refuses symbol kept
      simp only [scan, refused, Outcome.emit.injEq] at emits
      exact absurd emits.1 other

/-- A symbol of the class is consumed. -/
theorem Picks.scan_symbol {wanted : ρ} {keep : α → Prop} {state : σ} {after : α → σ}
    (picks : Picks machine wanted keep state after) {symbol : α} (kept : keep symbol)
    (more : List α) :
    scan machine state (symbol :: more) = scan machine (after symbol) more := by
  simp only [scan, picks.keeps symbol kept]

/-- In these states the machine collects a word of symbols of a class, up to a
delimiter. -/
structure Collects (machine : σ → α → Verdict σ ρ) (wanted : ρ) (keep : α → Prop) (stops : α)
    (during after : List α → σ) : Prop where
  keeps : ∀ seen symbol, keep symbol →
    machine (during seen) symbol = .next (during (seen ++ [symbol]))
  ends : ∀ seen, machine (during seen) stops = .next (after seen)
  refuses : ∀ seen symbol, ¬ keep symbol → symbol ≠ stops →
    ∃ result final, machine (during seen) symbol = .stop result final ∧ result ≠ wanted

section Words

variable {wanted : ρ} {keep : α → Prop} {stops : α} {during after : List α → σ}

/-- A word and its delimiter are collected. -/
theorem Collects.scan_word (collects : Collects machine wanted keep stops during after)
    (seen word more : List α) (kept : ∀ symbol ∈ word, keep symbol) :
    scan machine (during seen) (word ++ stops :: more) =
      scan machine (after (seen ++ word)) more := by
  induction word generalizing seen with
  | nil => simp only [List.nil_append, List.append_nil, scan, collects.ends]
  | cons symbol word inductionHypothesis =>
    have first_kept := kept symbol List.mem_cons_self
    have rest_kept := fun other member => kept other (List.mem_cons_of_mem symbol member)
    simp only [List.cons_append, scan, collects.keeps seen symbol first_kept,
      inductionHypothesis (seen ++ [symbol]) rest_kept, List.append_assoc, List.nil_append]

/-- Input that leads to the wanted result from such a state begins with a word
and the delimiter. -/
theorem Collects.inv (collects : Collects machine wanted keep stops during after)
    {seen input rest : List α} {final : σ}
    (emits : scan machine (during seen) input = .emit wanted final rest) :
    ∃ word more, input = word ++ stops :: more ∧ (∀ symbol ∈ word, keep symbol) ∧
      scan machine (after (seen ++ word)) more = .emit wanted final rest := by
  induction input generalizing seen with
  | nil => cases emits
  | cons symbol symbols inductionHypothesis =>
    by_cases kept : keep symbol
    · simp only [scan, collects.keeps seen symbol kept] at emits
      obtain ⟨word, more, split, all, continued⟩ := inductionHypothesis emits
      refine ⟨symbol :: word, more, by rw [split, List.cons_append], ?_, ?_⟩
      · intro other member
        rcases List.mem_cons.mp member with rfl | member
        · exact kept
        · exact all other member
      · simpa only [List.append_assoc, List.cons_append, List.nil_append] using continued
    · by_cases ended : symbol = stops
      · subst ended
        simp only [scan, collects.ends] at emits
        exact ⟨[], symbols, rfl, by simp, by simpa only [List.append_nil] using emits⟩
      · obtain ⟨result, stopped, refused, other⟩ := collects.refuses seen symbol kept ended
        simp only [scan, refused, Outcome.emit.injEq] at emits
        exact absurd emits.1 other

/-- A word that begins in a state of its own is collected like any other. -/
theorem Collects.scan_nonempty {start : σ}
    (collects : Collects machine wanted keep stops during after)
    (picks : Picks machine wanted keep start fun symbol => during [symbol])
    {word : List α} (nonempty : word ≠ []) (kept : ∀ symbol ∈ word, keep symbol)
    (more : List α) :
    scan machine start (word ++ stops :: more) = scan machine (after word) more := by
  obtain ⟨symbol, others, rfl⟩ := List.exists_cons_of_ne_nil nonempty
  have rest_kept := fun other member => kept other (List.mem_cons_of_mem symbol member)
  rw [List.cons_append, picks.scan_symbol (kept symbol List.mem_cons_self),
    collects.scan_word [symbol] others more rest_kept, List.singleton_append]

/-- Accepted input begins with such a word, and the word is not empty. -/
theorem Collects.inv_nonempty {start final : σ}
    (collects : Collects machine wanted keep stops during after)
    (picks : Picks machine wanted keep start fun symbol => during [symbol])
    {input rest : List α} (emits : scan machine start input = .emit wanted final rest) :
    ∃ word more, input = word ++ stops :: more ∧ word ≠ [] ∧ (∀ symbol ∈ word, keep symbol) ∧
      scan machine (after word) more = .emit wanted final rest := by
  obtain ⟨symbol, others, rfl, kept, collecting⟩ := picks.inv emits
  obtain ⟨word, more, rfl, all, continued⟩ := collects.inv collecting
  refine ⟨symbol :: word, more, rfl, by simp, ?_, continued⟩
  intro other member
  rcases List.mem_cons.mp member with rfl | member
  · exact kept
  · exact all other member

end Words

end Machine

end Cppboot.Incremental
