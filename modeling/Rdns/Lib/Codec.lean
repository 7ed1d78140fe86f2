import Rdns.Lib.Words

/-!
# Append-only writers and cursor readers

A writer extends a byte buffer while threading a state shared by everything
written so far; a reader moves a cursor over a fixed buffer.  `Exact` says when a
reader placed at the end of what was written before recovers the value, whatever
is appended afterwards, and that it fails otherwise; `Stops`, that a cut inside what
was written stops it.  The deciding account of the history is abstract: a trace of
marks is replayed on it.  `Framed` is both and closed under sequencing and loops, so
a format is verified field by field.
-/

set_option autoImplicit false

namespace Rdns.Lib

variable {σ ε α β γ τ X : Type}

/-- The cursor advances over a buffer that is passed separately. -/
abbrev Reader (ε α : Type) := StateT Nat (Except ε) α

abbrev Writer (σ : Type) := Bytes × σ → Bytes × σ

def put (segment : Bytes) : Writer σ := fun state => (state.1 ++ segment, state.2)

def andThen (first second : Writer σ) : Writer σ := fun state => second (first state)

def forCount : Nat → (β → Reader ε β) → β → Reader ε β
  | 0, _, acc => pure acc
  | count + 1, body, acc => do forCount count body (← body acc)

theorem forCount_add (first second : Nat) (body : β → Reader ε β) (acc : β) :
    forCount (first + second) body acc = forCount first body acc >>= forCount second body := by
  induction first generalizing acc with
  | zero => simp [forCount]
  | succ first ih =>
    rw [Nat.succ_add]
    simp only [forCount, bind_assoc, ih]

theorem bind_ok {first : Reader ε α} {next : α → Reader ε β} {pos pos' : Nat} {value : α}
    (run : first pos = .ok (value, pos')) : (first >>= next) pos = next value pos' := by
  change (first pos >>= fun result => next result.1 result.2) = next value pos'
  rw [run]
  rfl

theorem bind_error {first : Reader ε α} {next : α → Reader ε β} {pos : Nat} {error : ε}
    (run : first pos = .error error) : (first >>= next) pos = .error error := by
  change (first pos >>= fun result => next result.1 result.2) = .error error
  rw [run]
  rfl

theorem bind_eq_ok {first : Reader ε α} {next : α → Reader ε β} {pos : Nat} {result : β × Nat}
    (run : (first >>= next) pos = .ok result) :
    ∃ value middle, first pos = .ok (value, middle) ∧ next value middle = .ok result := by
  cases begun : first pos with
  | error error =>
    rw [bind_error begun] at run
    cases run
  | ok reached =>
    rw [bind_ok begun] at run
    exact ⟨reached.1, reached.2, rfl, run⟩

theorem forCount_invariant {body : β → Reader ε β} (holds : Nat → β → Prop)
    (each : ∀ rounds acc pos acc' pos', holds rounds acc → body acc pos = .ok (acc', pos') →
      holds (rounds + 1) acc') :
    ∀ {count rounds : Nat} {acc : β} {pos : Nat} {acc' : β} {pos' : Nat}, holds rounds acc →
      forCount count body acc pos = .ok (acc', pos') → holds (rounds + count) acc' := by
  intro count
  induction count with
  | zero =>
    intro rounds acc pos acc' pos' start run
    cases run
    exact start
  | succ count ih =>
    intro rounds acc pos acc' pos' start run
    obtain ⟨next, middle, first, rest⟩ := bind_eq_ok run
    have later := ih (each _ _ _ _ _ start first) rest
    rwa [Nat.add_assoc, Nat.add_comm 1] at later

theorem get_bind (next : Nat → Reader ε α) (pos : Nat) : (get >>= next) pos = next pos pos := rfl

/-! ## Writers whose output depends on the buffer only through its length -/

/-- Bytes already written are counted but never inspected, and what is appended
is between `least` and `most` bytes long. -/
def Emits (write : Writer σ) (least most : Nat) : Prop :=
  ∀ (length : Nat) (state : σ), ∃ segment state', least ≤ segment.length ∧ segment.length ≤ most ∧
    ∀ out : Bytes, out.length = length → write (out, state) = (out ++ segment, state')

theorem Emits.put (segment : Bytes) :
    Emits (put segment : Writer σ) segment.length segment.length :=
  fun _ state => ⟨segment, state, le_rfl, le_rfl, fun _ _ => rfl⟩

theorem Emits.comp {first second : Writer σ} {least most least' most' : Nat}
    (left : Emits first least most) (right : Emits second least' most') :
    Emits (andThen first second) (least + least') (most + most') := by
  intro length state
  obtain ⟨segment, state', lower, upper, firstRun⟩ := left length state
  obtain ⟨segment', state'', lower', upper', secondRun⟩ := right (length + segment.length) state'
  refine ⟨segment ++ segment', state'', ?_, ?_, fun out exact => ?_⟩
  · rw [List.length_append]
    omega
  · rw [List.length_append]
    omega
  · change second (first (out, state)) = _
    rw [firstRun out exact, secondRun (out ++ segment) (by simp [exact]), List.append_assoc]

theorem Emits.mono {write : Writer σ} {least most least' most' : Nat}
    (emits : Emits write least most) (lower : least' ≤ least) (upper : most ≤ most') :
    Emits write least' most' := by
  intro length state
  obtain ⟨segment, state', atLeast, atMost, run⟩ := emits length state
  exact ⟨segment, state', lower.trans atLeast, atMost.trans upper, run⟩

/-- The same without a bound on the length. -/
def Blind (write : Writer σ) : Prop :=
  ∀ (length : Nat) (state : σ), ∃ segment state',
    ∀ out : Bytes, out.length = length → write (out, state) = (out ++ segment, state')

theorem Emits.blind {write : Writer σ} {least most : Nat} (emits : Emits write least most) :
    Blind write := by
  intro length state
  obtain ⟨segment, state', _, _, run⟩ := emits length state
  exact ⟨segment, state', run⟩

theorem Blind.comp {first second : Writer σ} (left : Blind first) (right : Blind second) :
    Blind (andThen first second) := by
  intro length state
  obtain ⟨segment, state', firstRun⟩ := left length state
  obtain ⟨segment', state'', secondRun⟩ := right (length + segment.length) state'
  refine ⟨segment ++ segment', state'', fun out exact => ?_⟩
  change second (first (out, state)) = _
  rw [firstRun out exact, secondRun (out ++ segment) (by simp [exact]), List.append_assoc]

theorem Blind.each {write : X → Writer σ} (items : List X)
    (each : ∀ item ∈ items, Blind (write item)) :
    Blind fun state => items.foldl (fun s item => write item s) state := by
  induction items with
  | nil => exact fun _ state => ⟨[], state, fun out _ => by simp⟩
  | cons item rest ih =>
    exact Blind.comp (each item (by simp)) (ih fun other member => each other (by simp [member]))

/-! ## Reading back what was written -/

/-- What ties the buffer and the shared state to an account of the history, how a
mark changes the account, and whether what the mark stands for can be read back. -/
structure Medium (σ γ τ : Type) where
  tied : Bytes → σ → γ → Prop
  step : γ → τ → γ
  able : γ → τ → Prop

variable {medium : Medium σ γ τ} {stop : ε}

def Medium.after (medium : Medium σ γ τ) (account : γ) (trace : List τ) : γ :=
  trace.foldl medium.step account

def Medium.Legible (medium : Medium σ γ τ) : γ → List τ → Prop
  | _, [] => True
  | account, mark :: rest =>
    medium.able account mark ∧ medium.Legible (medium.step account mark) rest

theorem Medium.legible_append (medium : Medium σ γ τ) (front back : List τ) :
    ∀ account : γ, medium.Legible account (front ++ back) ↔
      medium.Legible account front ∧ medium.Legible (medium.after account front) back := by
  induction front with
  | nil => exact fun account => ⟨fun holds => ⟨trivial, holds⟩, And.right⟩
  | cons mark rest ih =>
    intro account
    exact (and_congr_right fun _ => ih (medium.step account mark)).trans and_assoc.symm

/-- The value where it can be had, an error where not. -/
def Settles (can : Prop) (result : Except ε α) (value : α) : Prop :=
  (can → result = .ok value) ∧ (¬ can → ∃ error, result = .error error)

theorem Settles.bind {first : Reader ε α} (next : α → Reader ε β) {pos middle : Nat} {value : α}
    {result : β × Nat} {can could : Prop} (left : Settles can (first pos) (value, middle))
    (right : Settles could (next value middle) result) :
    Settles (can ∧ could) ((first >>= next) pos) result := by
  by_cases head : can
  · rw [Settles, bind_ok (left.1 head)]
    exact ⟨fun both => right.1 both.2, fun neither => right.2 fun tail => neither ⟨head, tail⟩⟩
  · obtain ⟨error, failed⟩ := left.2 head
    exact ⟨fun both => absurd both.1 head, fun _ => ⟨error, bind_error failed⟩⟩

/-- In front of any suffix `read`, told the length, recovers `value` from what
`write` appends if the trace is legible, and fails if not. -/
def ExactSized (medium : Medium σ γ τ) (trace : List τ) (write : Writer σ)
    (read : Bytes → Nat → Reader ε α) (value : α) : Prop :=
  ∀ out state account, medium.tied out state account → ∃ segment state',
    write (out, state) = (out ++ segment, state') ∧
      medium.tied (out ++ segment) state' (medium.after account trace) ∧
      ∀ rest, Settles (medium.Legible account trace)
        (read (out ++ segment ++ rest) segment.length out.length)
        (value, out.length + segment.length)

def Exact (medium : Medium σ γ τ) (trace : List τ) (write : Writer σ)
    (read : Bytes → Reader ε α) (value : α) : Prop :=
  ExactSized medium trace write (fun buf _ => read buf) value

/-- Where less than all of what `write` appends is there, `read`, told the full
length, stops with `stop`. -/
def StopsSized (medium : Medium σ γ τ) (trace : List τ) (write : Writer σ)
    (read : Bytes → Nat → Reader ε α) (stop : ε) : Prop :=
  ∀ out state account, medium.tied out state account → medium.Legible account trace →
    ∃ segment state', write (out, state) = (out ++ segment, state') ∧
      ∀ cut, cut < segment.length →
        read (out ++ segment.take cut) segment.length out.length = .error stop

def Stops (medium : Medium σ γ τ) (trace : List τ) (write : Writer σ)
    (read : Bytes → Reader ε α) (stop : ε) : Prop :=
  StopsSized medium trace write (fun buf _ => read buf) stop

def FramedSized (medium : Medium σ γ τ) (stop : ε) (trace : List τ) (write : Writer σ)
    (read : Bytes → Nat → Reader ε α) (value : α) : Prop :=
  ∀ out state account, medium.tied out state account → ∃ segment state',
    write (out, state) = (out ++ segment, state') ∧
      medium.tied (out ++ segment) state' (medium.after account trace) ∧
      (∀ rest, Settles (medium.Legible account trace)
        (read (out ++ segment ++ rest) segment.length out.length)
        (value, out.length + segment.length)) ∧
      (medium.Legible account trace → ∀ cut, cut < segment.length →
        read (out ++ segment.take cut) segment.length out.length = .error stop)

def Framed (medium : Medium σ γ τ) (stop : ε) (trace : List τ) (write : Writer σ)
    (read : Bytes → Reader ε α) (value : α) : Prop :=
  FramedSized medium stop trace write (fun buf _ => read buf) value

variable {trace front back : List τ} {write : Writer σ} {read : Bytes → Reader ε α} {value : α}
  {result : β}

theorem Framed.exact (framed : Framed medium stop trace write read value) :
    Exact medium trace write read value := by
  intro out state account tied
  obtain ⟨segment, state', run, tied', reads, _⟩ := framed out state account tied
  exact ⟨segment, state', run, tied', reads⟩

theorem Framed.stops (framed : Framed medium stop trace write read value) :
    Stops medium trace write read stop := by
  intro out state account tied legible
  obtain ⟨segment, state', run, _, _, stopped⟩ := framed out state account tied
  exact ⟨segment, state', run, stopped legible⟩

theorem Framed.pure (value : α) :
    Framed medium stop [] (fun state => state) (fun _ => pure value) value := by
  intro out state account holds
  refine ⟨[], state, by simp, by rwa [List.append_nil], fun rest => ?_, fun _ cut short => ?_⟩
  · exact ⟨fun _ => rfl, fun never => absurd trivial never⟩
  · exact absurd short (Nat.not_lt_zero cut)

/-- A reader that does no more than `read` where that fails, and takes its value on
where it ends behind the segment. -/
theorem FramedSized.through {read : Bytes → Nat → Reader ε α} {read' : Bytes → Nat → Reader ε β}
    {value' : β} (reads : FramedSized medium stop trace write read value)
    (returns : ∀ {buf size pos}, read buf size pos = .ok (value, pos + size) →
      read' buf size pos = .ok (value', pos + size))
    (fails : ∀ {buf size pos error}, read buf size pos = .error error →
      read' buf size pos = .error error) :
    FramedSized medium stop trace write read' value' := by
  intro out state account holds
  obtain ⟨segment, state', run, holds', settled, stopped⟩ := reads out state account holds
  refine ⟨segment, state', run, holds', fun rest => ⟨fun able => ?_, fun never => ?_⟩,
    fun able cut short => fails (stopped able cut short)⟩
  · exact returns ((settled rest).1 able)
  · obtain ⟨error, failed⟩ := (settled rest).2 never
    exact ⟨error, fails failed⟩

theorem Framed.bind {first second : Writer σ} (next : Bytes → α → Reader ε β)
    (left : Framed medium stop front first read value)
    (right : Framed medium stop back second (fun buf => next buf value) result) :
    Framed medium stop (front ++ back) (andThen first second) (fun buf => read buf >>= next buf)
      result := by
  intro out state account holds
  obtain ⟨segment, state', firstRun, firstHolds, firstReads, firstStops⟩ :=
    left out state account holds
  obtain ⟨segment', state'', secondRun, secondHolds, secondReads, secondStops⟩ :=
    right (out ++ segment) state' _ firstHolds
  rw [Medium.legible_append]
  refine ⟨segment ++ segment', state'', ?_, ?_, fun rest => ?_, ?_⟩
  · change second (first (out, state)) = _
    rw [firstRun, secondRun, List.append_assoc]
  · rw [List.append_assoc] at secondHolds
    rw [Medium.after, List.foldl_append]
    exact secondHolds
  · have head := firstReads (segment' ++ rest)
    have tail := secondReads rest
    simp only [List.append_assoc, List.length_append, ← Nat.add_assoc] at head tail ⊢
    exact head.bind _ tail
  · rintro ⟨ableFront, ableBack⟩ cut short
    rw [List.length_append] at short
    by_cases early : cut < segment.length
    · rw [List.take_append_of_le_length early.le]
      exact bind_error (firstStops ableFront cut early)
    obtain ⟨later, rfl⟩ := Nat.exists_eq_add_of_le (Nat.le_of_not_lt early)
    have head := (firstReads (segment'.take later)).1 ableFront
    have tail := secondStops ableBack later (by omega)
    rw [List.length_append] at tail
    rw [List.take_length_add_append, ← List.append_assoc]
    exact (bind_ok head).trans tail

theorem Framed.first {mark : τ} {first second : Writer σ} (next : Bytes → α → Reader ε β)
    (left : Framed medium stop [mark] first read value)
    (right : Framed medium stop back second (fun buf => next buf value) result) :
    Framed medium stop (mark :: back) (andThen first second) (fun buf => read buf >>= next buf)
      result :=
  Framed.bind next left right

theorem Framed.map (wrap : α → β) (reads : Framed medium stop trace write read value) :
    Framed medium stop trace write (fun buf => do Pure.pure (wrap (← read buf))) (wrap value) :=
  FramedSized.through reads bind_ok bind_error

theorem Framed.loop {write : X → Writer σ} {layout : X → List τ} {body : Bytes → β → Reader ε β}
    {step : β → X → β} (items : List X)
    (each : ∀ item ∈ items, ∀ acc,
      Framed medium stop (layout item) (write item) (fun buf => body buf acc) (step acc item)) :
    ∀ acc, Framed medium stop (items.flatMap layout)
      (fun state => items.foldl (fun s item => write item s) state)
      (fun buf => forCount items.length (body buf) acc) (items.foldl step acc) := by
  induction items with
  | nil => exact fun acc => Framed.pure acc
  | cons item rest ih =>
    intro acc
    have head := each item (by simp) acc
    have tail := ih (fun other member => each other (by simp [member])) (step acc item)
    exact Framed.bind (fun buf value => forCount rest.length (body buf) value) head tail

theorem Framed.collect {write : X → Writer σ} {layout : X → List τ} {body : Bytes → β → Reader ε β}
    (extend : β → List X → β) (nil : ∀ acc, extend acc [] = acc)
    (cons : ∀ acc item rest, extend (extend acc [item]) rest = extend acc (item :: rest))
    (items : List X)
    (each : ∀ item ∈ items, ∀ acc,
      Framed medium stop (layout item) (write item) (fun buf => body buf acc) (extend acc [item])) :
    ∀ acc, Framed medium stop (items.flatMap layout)
      (fun state => items.foldl (fun s item => write item s) state)
      (fun buf => forCount items.length (body buf) acc) (extend acc items) := by
  have collected : ∀ (items : List X) (acc : β),
      items.foldl (fun acc item => extend acc [item]) acc = extend acc items := by
    intro items
    induction items with
    | nil => exact fun acc => (nil acc).symm
    | cons item rest ih => exact fun acc => (ih _).trans (cons acc item rest)
  intro acc
  have loop := Framed.loop items each acc
  rwa [collected] at loop

end Rdns.Lib
