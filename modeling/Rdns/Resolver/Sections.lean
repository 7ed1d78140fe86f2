import Rdns.Resolver.Walk

/-!
# Sections judged by the key table

`verify_section` asks for keys as it goes.  Because an answer once given stays in
the table, the outcome for each RRset is the one a reader of the final table
would come to: `judge` is that reader, a function of the section and the table
alone.  The flags of a section and the verdict on a message are then stated
through `judge`.
-/

set_option autoImplicit false

namespace Rdns.Resolver

open Rdns.Lib Rdns.Proto Rdns.Dnssec

variable {ctx ctx' : Ctx} {sig : Bytes} {records : List Record} {result : SectionResult}
  {msg : Message}

abbrev KeyTable := DnsName → Option (List Bytes)

/-- A zone never asked for has no keys. -/
def Ctx.table (ctx : Ctx) : KeyTable := fun zone => (ctx.keys.get? zone).getD (some [])

theorem Ctx.table_none_iff (ctx : Ctx) (zone : DnsName) :
    ctx.table zone = none ↔ ctx.keys.get? zone = some none := by
  unfold Ctx.table
  cases ctx.keys.get? zone <;> simp

theorem Ctx.get?_of_table {ctx : Ctx} {zone : DnsName} {keys : List Bytes}
    (known : ctx.table zone = some keys) (nonempty : keys ≠ []) :
    ctx.keys.get? zone = some (some keys) := by
  unfold Ctx.table at known
  cases entry : ctx.keys.get? zone with
  | none => simp [entry, nonempty.symm] at known
  | some value => simpa [entry] using known

def Ctx.Within (ctx : Ctx) (table : KeyTable) : Prop :=
  ∀ zone value, ctx.keys.get? zone = some value → table zone = value

theorem Ctx.within_table (ctx : Ctx) : ctx.Within ctx.table := by
  intro zone value known
  simp [Ctx.table, known]

variable {table : KeyTable}

theorem Ctx.Grows.within (grows : ctx.Grows ctx') (within : ctx'.Within table) : ctx.Within table :=
  fun zone value known => within zone value (grows zone value known)

variable (crypto : Crypto) (fetcher : Fetcher) (self : Validator)

/-! ## One RRset -/

def Accepts (table : KeyTable) (rrset : List Record) (sig : Bytes) (fields : RrsigFields) : Prop :=
  ∃ keys, table fields.signer = some keys ∧ ∃ key ∈ keys, verifyRrsig crypto rrset sig key = true

def judgeSigs (table : KeyTable) (rrset : List Record) : List Bytes → Outcome
  | [] => .bogus
  | sig :: rest =>
    match parseRrsig sig with
    | none => judgeSigs table rrset rest
    | some fields =>
      match table fields.signer with
      | none => .insecure sig
      | some keys =>
        if keys.any fun key => verifyRrsig crypto rrset sig key then .secure sig
        else judgeSigs table rrset rest

def judge (table : KeyTable) (records : List Record) (set : SetKey) : Outcome :=
  match sigsFor records set with
  | [] => .unsigned
  | sigs => judgeSigs crypto table (rrsetOf records set) sigs

variable {crypto} in
theorem accepts_iff_any {rrset : List Record} {fields : RrsigFields} {keys : List Bytes}
    (known : table fields.signer = some keys) :
    Accepts crypto table rrset sig fields ↔
      (keys.any fun key => verifyRrsig crypto rrset sig key) = true := by
  simp [Accepts, known]

theorem judgeSigs_cases (table : KeyTable) (rrset : List Record) (sig : Bytes) (rest : List Bytes) :
    ((∀ fields, parseRrsig sig = some fields → ¬ Accepts crypto table rrset sig fields) ∧
      judgeSigs crypto table rrset (sig :: rest) = judgeSigs crypto table rrset rest) ∨
    ∃ fields, parseRrsig sig = some fields ∧
      (table fields.signer = none ∧ judgeSigs crypto table rrset (sig :: rest) = .insecure sig ∨
        Accepts crypto table rrset sig fields ∧
          judgeSigs crypto table rrset (sig :: rest) = .secure sig) := by
  cases parsed : parseRrsig sig with
  | none => exact .inl ⟨by simp, by simp [judgeSigs, parsed]⟩
  | some fields =>
    cases known : table fields.signer with
    | none => exact .inr ⟨fields, rfl, .inl ⟨known, by simp [judgeSigs, parsed, known]⟩⟩
    | some keys =>
      by_cases accepted : (keys.any fun key => verifyRrsig crypto rrset sig key) = true
      · refine .inr ⟨fields, rfl, .inr ⟨(accepts_iff_any known).mpr accepted, ?_⟩⟩
        simp only [judgeSigs, parsed, known, if_pos accepted]
      · refine .inl ⟨?_, by simp only [judgeSigs, parsed, known, if_neg accepted]⟩
        rintro _ ⟨⟩ accepts
        exact accepted ((accepts_iff_any known).mp accepts)

variable {crypto}

/-- A scan is decided by a signature whose signer has no keys, or has one that accepts it. -/
theorem judgeSigs_decided (rrset : List Record) (sigs : List Bytes) :
    (judgeSigs crypto table rrset sigs = .insecure sig → sig ∈ sigs ∧
      ∃ fields, parseRrsig sig = some fields ∧ table fields.signer = none) ∧
    (judgeSigs crypto table rrset sigs = .secure sig → sig ∈ sigs ∧
      ∃ fields, parseRrsig sig = some fields ∧ Accepts crypto table rrset sig fields) := by
  induction sigs with
  | nil => exact ⟨nofun, nofun⟩
  | cons first rest ih =>
    rcases judgeSigs_cases crypto table rrset first rest with
      ⟨_, same⟩ | ⟨fields, parsed, ⟨insecure, here⟩ | ⟨accepts, here⟩⟩
    · rw [same]
      exact ⟨fun outcome => (ih.1 outcome).imp_left (List.mem_cons_of_mem _),
        fun outcome => (ih.2 outcome).imp_left (List.mem_cons_of_mem _)⟩
    · rw [here]
      refine ⟨fun outcome => ?_, nofun⟩
      cases outcome
      exact ⟨List.mem_cons_self, fields, parsed, insecure⟩
    · rw [here]
      refine ⟨nofun, fun outcome => ?_⟩
      cases outcome
      exact ⟨List.mem_cons_self, fields, parsed, accepts⟩

theorem judge_insecure {set : SetKey} (outcome : judge crypto table records set = .insecure sig) :
    sig ∈ sigsFor records set ∧
      ∃ fields, parseRrsig sig = some fields ∧ table fields.signer = none := by
  unfold judge at outcome
  split at outcome
  · cases outcome
  · exact (judgeSigs_decided _ _).1 outcome

theorem judge_secure {set : SetKey} (outcome : judge crypto table records set = .secure sig) :
    sig ∈ sigsFor records set ∧ ∃ fields, parseRrsig sig = some fields ∧
      Accepts crypto table (rrsetOf records set) sig fields := by
  unfold judge at outcome
  split at outcome
  · cases outcome
  · exact (judgeSigs_decided _ _).2 outcome

theorem judgeSigs_ne_unsigned (table : KeyTable) (rrset : List Record) (sigs : List Bytes) :
    judgeSigs crypto table rrset sigs ≠ .unsigned := by
  induction sigs with
  | nil => simp [judgeSigs]
  | cons sig rest ih =>
    rcases judgeSigs_cases crypto table rrset sig rest with
      ⟨_, same⟩ | ⟨_, _, ⟨_, here⟩ | ⟨_, here⟩⟩
    · rwa [same]
    · simp [here]
    · simp [here]

theorem judge_unsigned_iff (table : KeyTable) (records : List Record) (set : SetKey) :
    judge crypto table records set = .unsigned ↔ sigsFor records set = [] := by
  unfold judge
  cases sigsFor records set with
  | nil => simp
  | cons first rest => simp [judgeSigs_ne_unsigned]

/-! ## The loops against the table -/

variable (crypto)

structure Reads (ctx : Ctx) (outcome : Outcome) (ctx' : Ctx) (judged : KeyTable → Outcome) :
    Prop where
  grows : ctx.Grows ctx'
  judged : ∀ table, ctx'.Within table → judged table = outcome

theorem trySigs_reads (rrset : List Record) (sigs : List Bytes) (ctx : Ctx) :
    Reads ctx (self.trySigs crypto fetcher rrset sigs ctx).1
      (self.trySigs crypto fetcher rrset sigs ctx).2
      fun table => judgeSigs crypto table rrset sigs := by
  induction sigs generalizing ctx with
  | nil => exact ⟨.refl _, fun _ _ => rfl⟩
  | cons sig rest ih =>
    rw [Validator.trySigs]
    cases parsed : parseRrsig sig with
    | none =>
      obtain ⟨grows, judged⟩ := ih ctx
      refine ⟨grows, fun table within => ?_⟩
      simpa [judgeSigs, parsed] using judged table within
    | some fields =>
      have walk := walk_dnskeys crypto fetcher self (maxDepth + 1) fields.signer ctx
      simp only
      cases called : self.dnskeys crypto fetcher (maxDepth + 1) fields.signer ctx with
      | mk result ctx₁ =>
        rw [called] at walk
        have recorded := walk.records
        cases result with
        | none =>
          refine ⟨walk.grows, fun table within => ?_⟩
          simp [judgeSigs, parsed, within _ _ recorded]
        | some keys =>
          simp only
          by_cases accepted : (keys.any fun key => verifyRrsig crypto rrset sig key) = true
          · rw [if_pos accepted]
            refine ⟨walk.grows, fun table within => ?_⟩
            simp only [judgeSigs, parsed, within _ _ recorded, if_pos accepted]
          · rw [if_neg accepted]
            obtain ⟨grows, judged⟩ := ih ctx₁
            refine ⟨walk.grows.trans grows, fun table within => ?_⟩
            simp only [judgeSigs, parsed, grows.within within _ _ recorded, if_neg accepted]
            exact judged table within

theorem verifyRrset_reads (records : List Record) (set : SetKey) (ctx : Ctx) :
    Reads ctx (self.verifyRrset crypto fetcher records set ctx).1
      (self.verifyRrset crypto fetcher records set ctx).2
      fun table => judge crypto table records set := by
  unfold Validator.verifyRrset judge
  cases sigsFor records set with
  | nil => exact ⟨.refl _, fun _ _ => rfl⟩
  | cons first rest => exact trySigs_reads crypto fetcher self _ _ ctx

structure SectionReads (records : List Record) (sets : List SetKey) (anySecure : Bool) (ctx : Ctx)
    (result : SectionResult) (ctx' : Ctx) : Prop where
  grows : ctx.Grows ctx'
  bogus : ∀ table, ctx'.Within table →
    (result.bogus = true ↔ ∃ set ∈ sets, judge crypto table records set = .bogus)
  secure : ∀ table, ctx'.Within table → result.bogus = false →
    (result.anySecure = true ↔
      anySecure = true ∨ ∃ set ∈ sets, ∃ sig, judge crypto table records set = .secure sig)
  stable : ∀ table table', ctx'.Within table → ctx'.Within table' → result.bogus = false →
    ∀ set ∈ sets, judge crypto table records set = judge crypto table' records set

theorem verifySets_reads (records : List Record) (sets : List SetKey) (anySecure : Bool)
    (ctx : Ctx) : SectionReads crypto records sets anySecure ctx
      (self.verifySets crypto fetcher records sets anySecure ctx).1
      (self.verifySets crypto fetcher records sets anySecure ctx).2 := by
  induction sets generalizing anySecure ctx with
  | nil =>
    rw [Validator.verifySets]
    exact ⟨.refl _, by simp, by simp, fun _ _ _ _ _ => List.forall_mem_nil _⟩
  | cons set rest ih =>
    have reads := verifyRrset_reads crypto fetcher self records set ctx
    rw [Validator.verifySets]
    cases called : self.verifyRrset crypto fetcher records set ctx with
    | mk outcome ctx₁ =>
      rw [called] at reads
      -- the tail after an RRset that did not break the section
      have go : ∀ flag, outcome ≠ .bogus →
          (flag = true ↔ anySecure = true ∨ ∃ sig, outcome = .secure sig) →
          SectionReads crypto records (set :: rest) anySecure ctx
            (self.verifySets crypto fetcher records rest flag ctx₁).1
            (self.verifySets crypto fetcher records rest flag ctx₁).2 := by
        intro flag unbroken counted
        have tail := ih flag ctx₁
        refine ⟨reads.grows.trans tail.grows, ?_, ?_, ?_⟩
        · intro table within
          have here := reads.judged table (tail.grows.within within)
          simp [tail.bogus table within, here, unbroken]
        · intro table within quiet
          have here := reads.judged table (tail.grows.within within)
          simp [tail.secure table within quiet, here, counted, or_assoc]
        · intro table table' within within' quiet
          have here := reads.judged table (tail.grows.within within)
          have here' := reads.judged table' (tail.grows.within within')
          exact List.forall_mem_cons.mpr
            ⟨here.trans here'.symm, tail.stable table table' within within' quiet⟩
      cases outcome with
      | unsigned => exact go anySecure (by simp) (by simp)
      | insecure sig => exact go anySecure (by simp) (by simp)
      | secure sig => exact go true (by simp) (by simp)
      | bogus =>
        refine ⟨reads.grows, fun table within => ?_, by simp, by simp⟩
        simp [reads.judged table within]

theorem mem_sectionSets (records : List Record) (set : SetKey) :
    set ∈ sectionSets records ↔
      ∃ record ∈ records, record.rtype ≠ typeRrsig ∧ (record.name, record.rtype) = set := by
  rw [sectionSets, mem_setsOf]
  simp only [List.mem_filter, decide_not, Bool.not_eq_eq_eq_not, Bool.not_true,
    decide_eq_false_iff_not, and_assoc, ne_eq]

/-! ## The verdict against the table -/

def Sound (table : KeyTable) (records : List Record) : Prop :=
  ∀ set ∈ sectionSets records, judge crypto table records set ≠ .bogus

def Vouches (table : KeyTable) (records : List Record) : Prop :=
  ∃ set ∈ sectionSets records, ∃ sig, judge crypto table records set = .secure sig

/-- The authority section is looked at: a denial within the iteration cap. -/
def Consulted (msg : Message) : Prop :=
  nsec3IterationsExceed msg.authorities maxNsec3Iterations = false ∧ isDenial msg = true ∧
    msg.authorities ≠ []

theorem SectionReads.bogus_iff
    (reads : SectionReads crypto records (sectionSets records) false ctx result ctx')
    (within : ctx'.Within table) : result.bogus = true ↔ ¬ Sound crypto table records := by
  rw [reads.bogus table within]
  simp [Sound]

theorem SectionReads.secure_iff
    (reads : SectionReads crypto records (sectionSets records) false ctx result ctx')
    (within : ctx'.Within table) (quiet : result.bogus = false) :
    result.anySecure = true ↔ Vouches crypto table records := by
  rw [reads.secure table within quiet]
  simp [Vouches]

structure RunReads (msg : Message) (verdict : Security) (ctx : Ctx) : Prop where
  secure : verdict = .secure ↔ Sound crypto ctx.table msg.answers ∧
    (¬ Consulted msg ∧ Vouches crypto ctx.table msg.answers ∨
      Consulted msg ∧ Sound crypto ctx.table msg.authorities ∧
        (Vouches crypto ctx.table msg.authorities ∧ denialProven crypto msg = true ∨
          Vouches crypto ctx.table msg.answers ∧
            ¬ (Vouches crypto ctx.table msg.authorities ∧ hasNsec msg.authorities = true)))
  insecure : verdict = .insecure ↔ Sound crypto ctx.table msg.answers ∧
    ¬ Vouches crypto ctx.table msg.answers ∧
    (Consulted msg → Sound crypto ctx.table msg.authorities ∧
      ¬ (Vouches crypto ctx.table msg.authorities ∧ hasNsec msg.authorities = true))

theorem run_unconsulted (skipped : ¬ Consulted msg) :
    self.run crypto fetcher msg =
      let (answer, ctx) := self.verifySection crypto fetcher msg.answers Ctx.new
      if answer.bogus then (.bogus, ctx)
      else (if answer.anySecure then .secure else .insecure, ctx) := by
  unfold Validator.run
  cases self.verifySection crypto fetcher msg.answers Ctx.new with
  | mk answer ctx =>
    simp only
    by_cases bogus : answer.bogus = true
    · rw [if_pos bogus, if_pos bogus]
    · rw [if_neg bogus, if_neg bogus]
      by_cases capped : nsec3IterationsExceed msg.authorities maxNsec3Iterations = true
      · rw [if_pos capped]
      · rw [if_neg capped, if_neg]
        intro denial
        rw [Bool.and_eq_true, Bool.not_eq_true', List.isEmpty_eq_false_iff] at denial
        exact skipped ⟨eq_false_of_ne_true capped, denial.1, denial.2⟩

def conclude (answerSecure authSecure proven nsec : Bool) : Security :=
  if authSecure && proven then .secure
  else if authSecure && nsec then .bogus
  else if answerSecure then .secure else .insecure

theorem conclude_secure_iff (answerSecure authSecure proven nsec : Bool) :
    conclude answerSecure authSecure proven nsec = .secure ↔
      authSecure = true ∧ proven = true ∨
        answerSecure = true ∧ ¬ (authSecure = true ∧ nsec = true) := by
  cases answerSecure <;> cases authSecure <;> cases proven <;> cases nsec <;> simp [conclude]

theorem conclude_insecure_iff (answerSecure authSecure proven nsec : Bool)
    (witnessed : proven = true → nsec = true) :
    conclude answerSecure authSecure proven nsec = .insecure ↔
      ¬ answerSecure = true ∧ ¬ (authSecure = true ∧ nsec = true) := by
  cases answerSecure <;> cases authSecure <;> cases proven <;> cases nsec <;>
    simp_all [conclude]

theorem run_consulted (consulted : Consulted msg) :
    self.run crypto fetcher msg =
      let (answer, ctx) := self.verifySection crypto fetcher msg.answers Ctx.new
      if answer.bogus then (.bogus, ctx)
      else
        let (auth, ctx) := self.verifySection crypto fetcher msg.authorities ctx
        if auth.bogus then (.bogus, ctx)
        else (conclude answer.anySecure auth.anySecure (denialProven crypto msg)
          (hasNsec msg.authorities), ctx) := by
  obtain ⟨uncapped, denial, nonempty⟩ := consulted
  have entered : (isDenial msg && !msg.authorities.isEmpty) = true := by
    simp [denial, nonempty]
  unfold Validator.run conclude
  simp only [uncapped, entered, if_true, Bool.false_eq_true, if_false]
  split_ifs <;> rfl

theorem SectionReads.sound
    (reads : SectionReads crypto records (sectionSets records) false ctx result ctx')
    (within : ctx'.Within table) (quiet : result.bogus = false) : Sound crypto table records := by
  by_contra unsound
  rw [(reads.bogus_iff crypto within).mpr unsound] at quiet
  cases quiet

theorem runReads_bogus (unsound : ¬ Sound crypto ctx.table msg.answers) :
    RunReads crypto msg .bogus ctx :=
  ⟨by simp [unsound], by simp [unsound]⟩

theorem run_reads (msg : Message) :
    RunReads crypto msg (self.run crypto fetcher msg).1 (self.run crypto fetcher msg).2 := by
  have answers := verifySets_reads crypto fetcher self msg.answers (sectionSets msg.answers) false
    Ctx.new
  cases called : self.verifySets crypto fetcher msg.answers (sectionSets msg.answers) false
    Ctx.new with
  | mk answer ctx₁ =>
    rw [called] at answers
    cases bogus : answer.bogus with
    | true =>
      have stopped : self.run crypto fetcher msg = (.bogus, ctx₁) := by
        simp [Validator.run, Validator.verifySection, called, bogus]
      rw [stopped]
      exact runReads_bogus crypto ((answers.bogus_iff crypto ctx₁.within_table).mp bogus)
    | false =>
      by_cases consulted : Consulted msg
      · have authorities := verifySets_reads crypto fetcher self msg.authorities
          (sectionSets msg.authorities) false ctx₁
        obtain ⟨⟨auth, ctx⟩, called'⟩ : ∃ pair, self.verifySets crypto fetcher msg.authorities
          (sectionSets msg.authorities) false ctx₁ = pair := ⟨_, rfl⟩
        rw [called'] at authorities
        simp only [run_consulted crypto fetcher self consulted, Validator.verifySection, called,
          called', bogus, Bool.false_eq_true, if_false]
        have within := authorities.grows.within ctx.within_table
        have sound := answers.sound crypto within bogus
        have vouches := answers.secure_iff crypto within bogus
        cases broken : auth.bogus with
        | true =>
          have unsound := (authorities.bogus_iff crypto ctx.within_table).mp broken
          exact ⟨by simp [unsound, consulted], by simp [unsound, consulted]⟩
        | false =>
          have sound' := authorities.sound crypto ctx.within_table broken
          have vouches' := authorities.secure_iff crypto ctx.within_table broken
          constructor
          · simp [conclude_secure_iff, ← vouches, ← vouches', sound, sound', consulted]
          · simp only [Bool.false_eq_true, if_false]
            rw [conclude_insecure_iff _ _ _ _ (denialProven_hasNsec crypto)]
            simp [← vouches, ← vouches', sound, sound', consulted]
      · have sound := answers.sound crypto ctx₁.within_table bogus
        have vouches := answers.secure_iff crypto ctx₁.within_table bogus
        simp only [run_unconsulted crypto fetcher self consulted, Validator.verifySection, called,
          bogus, Bool.false_eq_true, if_false]
        exact ⟨by simp [← vouches, sound, consulted], by simp [← vouches, sound, consulted]⟩

/-! ## What every walk keeps -/

section Invariants

variable {crypto fetcher self} {inv : Ctx → Prop}

theorem trySigs_invariant (rrset : List Record) {sigs : List Bytes}
    (keeps : ∀ sig ∈ sigs, ∀ fields, parseRrsig sig = some fields → ∀ ctx, inv ctx →
      inv (self.dnskeys crypto fetcher (maxDepth + 1) fields.signer ctx).2)
    (ctx : Ctx) (holds : inv ctx) : inv (self.trySigs crypto fetcher rrset sigs ctx).2 := by
  induction sigs generalizing ctx with
  | nil => exact holds
  | cons sig rest ih =>
    obtain ⟨here, later⟩ := List.forall_mem_cons.mp keeps
    rw [Validator.trySigs]
    cases parsed : parseRrsig sig with
    | none => exact ih later ctx holds
    | some fields =>
      have kept := here fields parsed ctx holds
      simp only
      cases called : self.dnskeys crypto fetcher (maxDepth + 1) fields.signer ctx with
      | mk result ctx' =>
        rw [called] at kept
        cases result with
        | none => exact kept
        | some keys =>
          simp only
          split
          · exact kept
          · exact ih later ctx' kept

theorem verifyRrset_invariant {set : SetKey}
    (keeps : ∀ sig ∈ sigsFor records set, ∀ fields, parseRrsig sig = some fields → ∀ ctx, inv ctx →
      inv (self.dnskeys crypto fetcher (maxDepth + 1) fields.signer ctx).2)
    (ctx : Ctx) (holds : inv ctx) : inv (self.verifyRrset crypto fetcher records set ctx).2 := by
  unfold Validator.verifyRrset
  split
  · exact holds
  · exact trySigs_invariant _ keeps ctx holds

theorem verifySets_invariant {sets : List SetKey}
    (keeps : ∀ set ∈ sets, ∀ sig ∈ sigsFor records set, ∀ fields, parseRrsig sig = some fields →
      ∀ ctx, inv ctx → inv (self.dnskeys crypto fetcher (maxDepth + 1) fields.signer ctx).2)
    (anySecure : Bool) (ctx : Ctx) (holds : inv ctx) :
    inv (self.verifySets crypto fetcher records sets anySecure ctx).2 := by
  induction sets generalizing anySecure ctx with
  | nil => exact holds
  | cons set rest ih =>
    obtain ⟨here, later⟩ := List.forall_mem_cons.mp keeps
    have kept := verifyRrset_invariant here ctx holds
    rw [Validator.verifySets]
    cases called : self.verifyRrset crypto fetcher records set ctx with
    | mk outcome ctx' =>
      rw [called] at kept
      cases outcome with
      | unsigned => exact ih later _ ctx' kept
      | insecure _ => exact ih later _ ctx' kept
      | secure _ => exact ih later _ ctx' kept
      | bogus => exact kept

end Invariants

def Signs (msg : Message) (sig : Bytes) : Prop :=
  (∃ set ∈ sectionSets msg.answers, sig ∈ sigsFor msg.answers set) ∨
    Consulted msg ∧ ∃ set ∈ sectionSets msg.authorities, sig ∈ sigsFor msg.authorities set

variable {crypto fetcher self} in
theorem run_invariant {inv : Ctx → Prop}
    (keeps : ∀ sig, Signs msg sig → ∀ fields, parseRrsig sig = some fields → ∀ ctx, inv ctx →
      inv (self.dnskeys crypto fetcher (maxDepth + 1) fields.signer ctx).2)
    (initial : inv Ctx.new) : inv (self.run crypto fetcher msg).2 := by
  have answers := verifySets_invariant
    (fun set member sig listed => keeps sig (.inl ⟨set, member, listed⟩)) false Ctx.new initial
  obtain ⟨⟨answer, ctx⟩, called⟩ : ∃ pair, self.verifySets crypto fetcher msg.answers
    (sectionSets msg.answers) false Ctx.new = pair := ⟨_, rfl⟩
  rw [called] at answers
  by_cases consulted : Consulted msg
  · have authorities := verifySets_invariant
      (fun set member sig listed => keeps sig (.inr ⟨consulted, set, member, listed⟩)) false ctx
      answers
    obtain ⟨⟨auth, ctx'⟩, called'⟩ : ∃ pair, self.verifySets crypto fetcher msg.authorities
      (sectionSets msg.authorities) false ctx = pair := ⟨_, rfl⟩
    rw [called'] at authorities
    simp only [run_consulted crypto fetcher self consulted, Validator.verifySection,
      called, called']
    cases answer.bogus with
    | true => exact answers
    | false => cases auth.bogus <;> exact authorities
  · simp only [run_unconsulted crypto fetcher self consulted, Validator.verifySection, called]
    cases answer.bogus <;> exact answers

end Rdns.Resolver
