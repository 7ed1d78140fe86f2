import Rdns.Resolver.Recursor

/-!
# Resolution in an honest tree

Where every server answers as it should, a round of `resolve_depth` reveals one label,
whether a zone starts there or not, and a zone that starts at the name itself costs one
round more.  The rounds are bounded, so that the depth of a name decides: a reverse name
of IPv6 has 34 labels.
-/

set_option autoImplicit false

namespace Rdns.Resolver.Recursor

open Rdns.Lib Rdns.Proto

variable {name : DnsName} {keep : Nat}

/-! ## Trees of zones -/

structure Tree where
  zone : DnsName → Bool
  serves : SocketAddr → DnsName → Prop
  root : zone .root = true
  hints : ∀ server ∈ roots, serves server .root

structure Tree.NextCut (tree : Tree) (zone name cut : DnsName) : Prop where
  apex : tree.zone cut = true
  encloses : name.endsWith cut = true
  below : zone.labelCount < cut.labelCount
  topmost : ∀ other, tree.zone other = true → name.endsWith other = true →
    zone.labelCount < other.labelCount → cut.labelCount ≤ other.labelCount

/-- The zone that has the answer to a question: the deepest around the name, and for DS
the deepest above it. -/
structure Tree.Responsible (tree : Tree) (zone qname : DnsName) (qtype : UInt16) : Prop where
  apex : tree.zone zone = true
  encloses : qname.endsWith zone = true
  parent : qtype = typeDs → zone = qname → qname = .root
  last : ∀ cut, tree.NextCut zone qname cut → qtype = typeDs ∧ cut = qname

/-- A referral: the NS records of the cut, and addresses of its servers, one of them at
least under a name inside the zone that refers. -/
structure Refers (tree : Tree) (msg : Message) (zone cut : DnsName) : Prop where
  unanswered : msg.answers = []
  named : nsNames msg ≠ []
  owned : ∀ record ∈ msg.authorities, record.rtype = typeNs → record.name = cut
  reached : ∃ record ∈ msg.additionals, record.name ∈ nsNames msg ∧
    record.name.endsWith zone = true ∧ ∃ address, AddressIn record address
  served : ∀ record ∈ msg.additionals, record.name ∈ nsNames msg →
    ∀ address, AddressIn record address → tree.serves address cut

structure Vacant (msg : Message) : Prop where
  rcode : msg.flags.rcode = rcodeNoerror
  unreferred : ∀ record ∈ msg.authorities, record.rtype ≠ typeNs

/-- An RRset or its denial, with the NS records of the zone itself at most, and not a
CNAME in place of what was asked for. -/
structure Settled (msg : Message) (zone qname : DnsName) (qtype : UInt16) : Prop where
  owned : ∀ record ∈ msg.authorities, record.rtype = typeNs → record.name = zone
  direct : ∀ record ∈ msg.answers, record.name = qname → record.rtype = typeCname →
    qtype = typeCname

/-- Every server answers correctly for the zones it serves, whenever it is asked on the
way to the answer: for NS at the names above, and at last the question itself. -/
structure Honest (tree : Tree) (world : World) (qname : DnsName) (qtype : UInt16) : Prop where
  /-- At the next zone cut there is a referral. -/
  refers : ∀ asked server zone name rtype cut, tree.serves server zone →
    (name = qname ∧ rtype = qtype ∨ qname.endsWith name = true ∧ name ≠ qname ∧ rtype = typeNs) →
    tree.NextCut zone name cut → ¬ (rtype = typeDs ∧ cut = name) →
    ∃ msg, world.reply asked server name rtype = .ok msg ∧ Refers tree msg zone cut
  /-- An intermediate name that is no cut has no data. -/
  probes : ∀ asked server zone name, tree.serves server zone →
    qname.endsWith name = true → name ≠ qname → name.endsWith zone = true →
    (∀ cut, ¬ tree.NextCut zone name cut) →
    ∃ msg, world.reply asked server name typeNs = .ok msg ∧ Vacant msg
  /-- The question is answered where it belongs. -/
  answers : ∀ asked server zone, tree.serves server zone → tree.Responsible zone qname qtype →
    ∃ msg, world.reply asked server qname qtype = .ok msg ∧ Settled msg zone qname qtype

def Authoritative (tree : Tree) (world : World) (qname : DnsName) (qtype : UInt16)
    (msg : Message) : Prop :=
  ∃ asked server zone, tree.serves server zone ∧ tree.Responsible zone qname qtype ∧
    world.reply asked server qname qtype = .ok msg

/-! ## Names on the way -/

theorem suffix_labels (short : keep ≤ name.labelCount) :
    (suffix name keep).labels = name.labels.drop (name.labelCount - keep) := by
  unfold suffix
  split
  · have none : name.labelCount - keep = 0 := by omega
    rw [none, List.drop_zero]
  · split
    · rename_i short made
      exact (DnsName.fromLabels_eq_ok_iff _ _).mp made
    · rename_i error refused
      -- labels of a name without the first ones are those of a name
      have made := (DnsName.fromLabels_eq_ok_iff (name.labels.drop (name.labelCount - keep))
        ⟨_, name.valid.drop _⟩).mpr rfl
      rw [made] at refused
      cases refused

theorem suffix_labelCount (short : keep ≤ name.labelCount) :
    (suffix name keep).labelCount = keep := by
  rw [DnsName.labelCount, suffix_labels short, List.length_drop]
  change name.labelCount - (name.labelCount - keep) = keep
  omega

theorem suffix_encloses (short : keep ≤ name.labelCount) :
    name.endsWith (suffix name keep) = true := by
  rw [DnsName.endsWith_iff, suffix_labels short]
  exact List.drop_suffix _ _

theorem suffix_whole (name : DnsName) : suffix name name.labelCount = name :=
  if_pos (Nat.le_refl _)

/-! ## What a reply leads to -/

section Replies

variable {tree : Tree} {msg : Message} {zone cut qname : DnsName} {qtype : UInt16}

theorem nsOwner_of_owned (owned : ∀ record ∈ msg.authorities, record.rtype = typeNs →
    record.name = cut) (named : nsNames msg ≠ []) : nsOwner msg = some cut := by
  obtain ⟨target, member⟩ := List.exists_mem_of_ne_nil _ named
  obtain ⟨record, kept, _⟩ := List.mem_filterMap.mp member
  obtain ⟨held, isNs⟩ := List.mem_filter.mp kept
  unfold nsOwner
  cases found : msg.authorities.find? fun record => record.rtype = typeNs with
  | none => exact absurd isNs (List.find?_eq_none.mp found record held)
  | some first =>
    have firstNs := List.find?_some found
    rw [Option.map_some, owned first (List.mem_of_find?_eq_some found)
      (of_decide_eq_true firstNs)]

theorem Refers.glue_ne_nil (refers : Refers tree msg zone cut) :
    glue msg (nsNames msg) zone ≠ [] := by
  obtain ⟨record, held, named, inside, address, addressed⟩ := refers.reached
  have member : address ∈ glue msg (nsNames msg) zone := by
    refine List.mem_filterMap.mpr ⟨record, List.mem_filter.mpr ⟨held, ?_⟩, ?_⟩
    · rw [List.contains_iff_mem.mpr named, inside]
      rfl
    · obtain ⟨ip, data, rfl⟩ | ⟨ip, data, rfl⟩ := addressed
      · rw [data]
      · rw [data]
  exact List.ne_nil_of_mem member

theorem Refers.glue_serves (refers : Refers tree msg zone cut) :
    ∀ address ∈ glue msg (nsNames msg) zone, tree.serves address cut := by
  intro address member
  obtain ⟨record, held, named, _, addressed⟩ := mem_glue member
  exact refers.served record held named address addressed

theorem Vacant.nsNames_eq_nil (vacant : Vacant msg) : nsNames msg = [] := by
  unfold nsNames
  have none : msg.authorities.filter (fun record => record.rtype = typeNs) = [] :=
    List.filter_eq_nil_iff.mpr fun record held isNs =>
      vacant.unreferred record held (of_decide_eq_true isNs)
  rw [none]
  rfl

theorem Settled.unresolvedTarget_eq_none (settled : Settled msg zone qname qtype) :
    unresolvedTarget msg qname qtype = none := by
  unfold unresolvedTarget
  split
  · rfl
  rename_i other
  cases found : msg.answers.find? fun record =>
      record.name = qname ∧ record.rtype = typeCname with
  | none => rfl
  | some record =>
    have aliased := List.find?_some found
    obtain ⟨owner, isAlias⟩ := of_decide_eq_true aliased
    exact absurd (settled.direct record (List.mem_of_find?_eq_some found) owner isAlias) other

end Replies

/-! ## Rounds -/

section Rounds

variable {world : World} {nested : DnsName → UInt16 → Walk (Except ForwardError Message)}
  {deeper : Bool} {tree : Tree} {qname : DnsName} {qtype : UInt16} {position : Position}
  {msg : Message}

variable {minName : DnsName}

/-- Where every server has an answer that will do, the first that is asked has one. -/
theorem queryServers_honest {servers : List SocketAddr} {rtype : UInt16} {good : Message → Prop}
    (filled : servers ≠ [])
    (replies : ∀ server ∈ servers, ∀ asked, ∃ msg,
      world.reply asked server name rtype = .ok msg ∧ good msg) :
    Returns (queryServers world servers name rtype) fun found =>
      ∃ msg, found = some msg ∧ good msg := by
  cases servers with
  | nil => exact absurd rfl filled
  | cons server rest =>
    have first : Returns (queryOne world server name rtype) fun reply =>
        ∃ msg, reply = .ok msg ∧ good msg :=
      fun session => replies server List.mem_cons_self session.asked
    refine first.bind fun reply => ?_
    rintro ⟨msg, rfl, fine⟩
    exact Returns.pure ⟨msg, rfl, fine⟩

theorem consider_refers {isFull : Bool} {cut : DnsName}
    (refers : Refers tree msg position.currentZone cut)
    (inside : cut.endsWith position.currentZone = true)
    (below : position.currentZone.labelCount < cut.labelCount)
    (notDs : ¬ (qtype = typeDs ∧ cut = qname)) :
    Returns (consider world nested deeper qname qtype position isFull minName msg) fun next =>
      ∃ servers, next = .go { position with
        servers, currentZone := cut, zoneDepth := max cut.labelCount (position.zoneDepth + 1) } ∧
        servers ≠ [] ∧ ∀ server ∈ servers, tree.serves server cut := by
  have unanswered : hasAnswer msg qname qtype = false := by
    rw [hasAnswer, refers.unanswered]
    rfl
  have named : (nsNames msg).isEmpty = false := List.isEmpty_eq_false_iff.mpr refers.named
  have glued : (glue msg (nsNames msg) position.currentZone).isEmpty = false :=
    List.isEmpty_eq_false_iff.mpr refers.glue_ne_nil
  have owner : (nsOwner msg).getD minName = cut := by
    rw [nsOwner_of_owned refers.owned refers.named]
    rfl
  have down : (!cut.endsWith position.currentZone ||
      cut.labelCount ≤ position.currentZone.labelCount) = false := by
    simp [inside, below]
  unfold consider
  rw [unanswered, named, Bool.and_false]
  change Returns (descend world nested deeper qname qtype position isFull minName msg) _
  unfold descend
  dsimp only
  rw [owner, if_neg notDs, down]
  have addresses : Returns (referralAddrs nested deeper msg (nsNames msg) position.currentZone)
      fun found => found = some (glue msg (nsNames msg) position.currentZone) := by
    unfold referralAddrs
    rw [glued]
    exact Returns.pure rfl
  refine addresses.bind fun found given => ?_
  rw [given]
  have cached : Returns (cacheDelegation world cut
      (glue msg (nsNames msg) position.currentZone) position.currentZone msg) fun _ => True :=
    fun _ => trivial
  refine cached.bind fun _ _ => Returns.pure ?_
  exact ⟨_, rfl, refers.glue_ne_nil, refers.glue_serves⟩

theorem consider_vacant (vacant : Vacant msg) :
    Returns (consider world nested deeper qname qtype position false minName msg) fun next =>
      next = .go { position with
        zoneDepth := position.zoneDepth + 1
        minimize := if position.zoneDepth + 1 ≥ qname.labelCount then false
          else position.minimize } := by
  have exists' : msg.flags.rcode ≠ rcodeNxdomain := by
    rw [vacant.rcode]
    decide
  unfold consider
  rw [vacant.nsNames_eq_nil]
  refine Returns.pure ?_
  rw [reveal, if_neg exists']

theorem consider_settled (settled : Settled msg position.currentZone qname qtype) :
    Returns (consider world nested deeper qname qtype position true minName msg) fun next =>
      next = .stop (.ok (finalize msg qname qtype)) := by
  unfold consider
  split
  · unfold answerFrom
    rw [settled.unresolvedTarget_eq_none]
    exact fun _ => rfl
  split
  · exact Returns.pure rfl
  rename_i named
  have filled : nsNames msg ≠ [] := fun none => named (by rw [none]; rfl)
  have owner : (nsOwner msg).getD minName = position.currentZone := by
    rw [nsOwner_of_owned settled.owned filled]
    rfl
  have same : (!position.currentZone.endsWith position.currentZone ||
      position.currentZone.labelCount ≤ position.currentZone.labelCount) = true := by
    simp
  rw [List.isEmpty_eq_false_iff.mpr filled]
  change Returns (descend world nested deeper qname qtype position true minName msg) _
  unfold descend
  dsimp only
  rw [owner, same, Bool.not_true, Bool.and_false]
  split
  · exact Returns.pure rfl
  · exact Returns.pure rfl

/-- A round: the first server has a reply that will do, and the rest follows from it. -/
theorem round_of_reply (kept : keep = min (position.zoneDepth + 1) qname.labelCount)
    (minimize : position.minimize = true) (filled : position.servers ≠ []) (good : Message → Prop)
    {result : Next → Prop}
    (replies : ∀ server ∈ position.servers, ∀ asked, ∃ msg,
      world.reply asked server (suffix qname keep)
        (if keep = qname.labelCount then qtype else typeNs) = .ok msg ∧ good msg)
    (follows : ∀ msg, good msg → Returns (consider world nested deeper qname qtype position
      (keep = qname.labelCount) (suffix qname keep) msg) result) :
    Returns (round world nested deeper qname qtype position) result := by
  unfold round
  dsimp only
  rw [if_pos minimize, ← kept]
  refine (queryServers_honest filled replies).bind fun found => ?_
  rintro ⟨msg, rfl, fine⟩
  have noted : Returns (note (.reply position.currentZone msg)) fun _ => True := fun _ => trivial
  exact noted.bind fun _ _ => follows msg fine

end Rounds

/-! ## The walk -/

/-- The position of a walk in an honest tree: in the deepest zone around the name that
starts no deeper than the labels revealed. -/
structure OnTrack (tree : Tree) (qname : DnsName) (qtype : UInt16) (position : Position) :
    Prop where
  minimize : position.minimize = true
  depth : position.zoneDepth ≤ qname.labelCount
  apex : tree.zone position.currentZone = true
  encloses : qname.endsWith position.currentZone = true
  above : position.currentZone.labelCount ≤ position.zoneDepth
  deepest : ∀ other, tree.zone other = true → qname.endsWith other = true →
    other.labelCount ≤ position.zoneDepth → other.labelCount ≤ position.currentZone.labelCount
  parent : qtype = typeDs → position.currentZone = qname → qname = .root
  filled : position.servers ≠ []
  served : ∀ server ∈ position.servers, tree.serves server position.currentZone

/-- The rounds left at a depth: one for each label, and one in a zone that starts at the
name, unless the question is for the records above it. -/
def roundsFrom (tree : Tree) (qname : DnsName) (qtype : UInt16) (depth : Nat) : Nat :=
  if depth < qname.labelCount then
    qname.labelCount - depth + if tree.zone qname = true ∧ qtype ≠ typeDs then 1 else 0
  else 1

def roundsNeeded (tree : Tree) (qname : DnsName) (qtype : UInt16) : Nat :=
  roundsFrom tree qname qtype 0

section Walk

variable {world : World} {nested : DnsName → UInt16 → Walk (Except ForwardError Message)}
  {deeper : Bool} {tree : Tree} {qname : DnsName} {qtype : UInt16} {position : Position}

theorem OnTrack.below_depth (track : OnTrack tree qname qtype position) {other : DnsName}
    (apex : tree.zone other = true) (encloses : qname.endsWith other = true)
    (below : position.currentZone.labelCount < other.labelCount) :
    position.zoneDepth < other.labelCount := by
  by_contra shallow
  have bound := track.deepest other apex encloses (by omega)
  omega

def Advances (tree : Tree) (world : World) (qname : DnsName) (qtype : UInt16)
    (position : Position) (next : Next) : Prop :=
  (roundsFrom tree qname qtype position.zoneDepth = 1 ∧
    ∃ msg, Authoritative tree world qname qtype msg ∧
      next = .stop (.ok (finalize msg qname qtype))) ∨
  ∃ position', next = .go position' ∧ OnTrack tree qname qtype position' ∧
    roundsFrom tree qname qtype position.zoneDepth =
      roundsFrom tree qname qtype position'.zoneDepth + 1

theorem OnTrack.descend (track : OnTrack tree qname qtype position) {cut : DnsName}
    (apex : tree.zone cut = true) (encloses : qname.endsWith cut = true)
    (next : cut.labelCount = position.zoneDepth + 1)
    (notDs : ¬ (qtype = typeDs ∧ cut = qname)) {servers : List SocketAddr} (filled : servers ≠ [])
    (served : ∀ server ∈ servers, tree.serves server cut) :
    OnTrack tree qname qtype { position with
      servers, currentZone := cut, zoneDepth := max cut.labelCount (position.zoneDepth + 1) } := by
  have depth : max cut.labelCount (position.zoneDepth + 1) = cut.labelCount := by omega
  rw [depth]
  exact {
    minimize := track.minimize
    depth := DnsName.labelCount_le_of_endsWith encloses
    apex := apex
    encloses := encloses
    above := Nat.le_refl _
    deepest := fun _ _ _ shallow => shallow
    parent := fun isDs whole => absurd ⟨isDs, whole⟩ notDs
    filled := filled
    served := served }

theorem OnTrack.reveal (track : OnTrack tree qname qtype position)
    (short : position.zoneDepth + 1 < qname.labelCount)
    (vacant : tree.zone (suffix qname (position.zoneDepth + 1)) = false) :
    OnTrack tree qname qtype { position with
      zoneDepth := position.zoneDepth + 1
      minimize := if position.zoneDepth + 1 ≥ qname.labelCount then false
        else position.minimize } := by
  rw [if_neg (by omega)]
  refine ⟨track.minimize, short.le, track.apex, track.encloses, ?_, ?_, track.parent,
    track.filled, track.served⟩
  · exact Nat.le_succ_of_le track.above
  · intro other apex encloses shallow
    by_cases revealed : other.labelCount = position.zoneDepth + 1
    · -- the only name with as many labels is the one that was asked for
      have same : other = suffix qname (position.zoneDepth + 1) :=
        DnsName.eq_of_endsWith encloses (suffix_encloses short.le)
          (revealed.trans (suffix_labelCount short.le).symm)
      rw [same, vacant] at apex
      cases apex
    · have shallow' : other.labelCount ≤ position.zoneDepth + 1 := shallow
      exact track.deepest other apex encloses (by omega)

theorem roundsFrom_succ {depth : Nat} (short : depth + 1 < qname.labelCount) :
    roundsFrom tree qname qtype depth = roundsFrom tree qname qtype (depth + 1) + 1 := by
  unfold roundsFrom
  rw [if_pos (by omega), if_pos short]
  omega

theorem round_intermediate (honest : Honest tree world qname qtype)
    (track : OnTrack tree qname qtype position)
    (short : position.zoneDepth + 1 < qname.labelCount) :
    Returns (round world nested deeper qname qtype position)
      (Advances tree world qname qtype position) := by
  have kept : position.zoneDepth + 1 = min (position.zoneDepth + 1) qname.labelCount := by omega
  have partly : position.zoneDepth + 1 ≠ qname.labelCount := by omega
  have count := suffix_labelCount short.le
  have encloses := suffix_encloses short.le
  have proper : suffix qname (position.zoneDepth + 1) ≠ qname := by
    intro whole
    rw [whole] at count
    omega
  have inside : (suffix qname (position.zoneDepth + 1)).endsWith position.currentZone = true :=
    DnsName.endsWith_of_le track.encloses encloses (by have := track.above; omega)
  have lower : position.currentZone.labelCount <
      (suffix qname (position.zoneDepth + 1)).labelCount := by
    have := track.above
    omega
  cases apex : tree.zone (suffix qname (position.zoneDepth + 1)) with
  | true =>
    have cut : tree.NextCut position.currentZone (suffix qname (position.zoneDepth + 1))
        (suffix qname (position.zoneDepth + 1)) := by
      refine ⟨apex, DnsName.endsWith_refl _, lower, fun other isZone around below => ?_⟩
      have deep := track.below_depth isZone (DnsName.endsWith_trans encloses around) below
      omega
    have notDs : ¬ (qtype = typeDs ∧ suffix qname (position.zoneDepth + 1) = qname) :=
      fun both => proper both.2
    refine round_of_reply kept track.minimize track.filled (Refers tree ·
      position.currentZone (suffix qname (position.zoneDepth + 1))) ?_ fun msg refers => ?_
    · intro server member asked
      rw [if_neg partly]
      exact honest.refers asked server _ _ _ _ (track.served server member)
        (.inr ⟨encloses, proper, rfl⟩) cut (fun both => absurd both.1 (by decide))
    · intro session
      obtain ⟨servers, went, filled, served⟩ :=
        consider_refers refers inside lower notDs session
      refine .inr ⟨_, went, track.descend apex encloses count notDs filled served, ?_⟩
      have depth : max (suffix qname (position.zoneDepth + 1)).labelCount
          (position.zoneDepth + 1) = position.zoneDepth + 1 := by omega
      dsimp only
      rw [depth]
      exact roundsFrom_succ short
  | false =>
    have none : ∀ cut, ¬ tree.NextCut position.currentZone
        (suffix qname (position.zoneDepth + 1)) cut := by
      intro cut next
      have around := DnsName.endsWith_trans encloses next.encloses
      have deep := track.below_depth next.apex around next.below
      have bound := DnsName.labelCount_le_of_endsWith next.encloses
      have same : cut = suffix qname (position.zoneDepth + 1) :=
        DnsName.eq_of_endsWith around encloses (by omega)
      have isZone := next.apex
      rw [same, apex] at isZone
      cases isZone
    refine round_of_reply kept track.minimize track.filled Vacant ?_ fun msg vacant => ?_
    · intro server member asked
      rw [if_neg partly]
      exact honest.probes asked server _ _ (track.served server member) encloses proper inside
        none
    · rw [decide_eq_false partly]
      intro session
      exact .inr ⟨_, consider_vacant vacant session, track.reveal short apex,
        roundsFrom_succ short⟩

theorem round_full (honest : Honest tree world qname qtype)
    (track : OnTrack tree qname qtype position)
    (last : qname.labelCount ≤ position.zoneDepth + 1) :
    Returns (round world nested deeper qname qtype position)
      (Advances tree world qname qtype position) := by
  have kept : qname.labelCount = min (position.zoneDepth + 1) qname.labelCount := by omega
  have whole := suffix_whole qname
  by_cases delegated : position.zoneDepth < qname.labelCount ∧ tree.zone qname = true ∧
      qtype ≠ typeDs
  · obtain ⟨short, apex, notDs⟩ := delegated
    have lower : position.currentZone.labelCount < qname.labelCount :=
      Nat.lt_of_le_of_lt track.above short
    have cut : tree.NextCut position.currentZone qname qname := by
      refine ⟨apex, DnsName.endsWith_refl _, lower, fun other isZone around below => ?_⟩
      have deep := track.below_depth isZone around below
      omega
    refine round_of_reply kept track.minimize track.filled
      (Refers tree · position.currentZone qname) ?_ fun msg refers => ?_
    · intro server member asked
      rw [if_pos rfl, whole]
      exact honest.refers asked server _ _ _ _ (track.served server member) (.inl ⟨rfl, rfl⟩) cut
        fun both => notDs both.1
    · intro session
      obtain ⟨servers, went, filled, served⟩ :=
        consider_refers refers track.encloses lower (fun both => notDs both.1) session
      refine .inr ⟨_, went, track.descend apex (DnsName.endsWith_refl _) (by omega)
        (fun both => notDs both.1) filled served, ?_⟩
      have depth : max qname.labelCount (position.zoneDepth + 1) = qname.labelCount := by omega
      dsimp only
      rw [depth]
      unfold roundsFrom
      rw [if_pos short, if_pos ⟨apex, notDs⟩, if_neg (Nat.lt_irrefl _)]
      omega
  · have responsible : tree.Responsible position.currentZone qname qtype := by
      refine ⟨track.apex, track.encloses, track.parent, fun cut next => ?_⟩
      have deep := track.below_depth next.apex next.encloses next.below
      have bound := DnsName.labelCount_le_of_endsWith next.encloses
      have same : cut = qname :=
        DnsName.eq_of_endsWith next.encloses (DnsName.endsWith_refl _) (by omega)
      rw [same] at deep
      have isZone := next.apex
      rw [same] at isZone
      exact ⟨by_contra fun notDs => delegated ⟨deep, isZone, notDs⟩, same⟩
    have one : roundsFrom tree qname qtype position.zoneDepth = 1 := by
      unfold roundsFrom
      split
      · rename_i short
        rw [if_neg fun both => delegated ⟨short, both⟩]
        omega
      · rfl
    refine round_of_reply kept track.minimize track.filled
      (fun msg => Authoritative tree world qname qtype msg ∧
        Settled msg position.currentZone qname qtype) ?_ ?_
    · intro server member asked
      rw [if_pos rfl, whole]
      obtain ⟨msg, replied, settled⟩ :=
        honest.answers asked server _ (track.served server member) responsible
      exact ⟨msg, replied, ⟨asked, server, _, track.served server member, responsible, replied⟩,
        settled⟩
    · rintro msg ⟨authoritative, settled⟩
      rw [decide_eq_true rfl]
      intro session
      exact .inl ⟨one, msg, authoritative, consider_settled settled session⟩

theorem round_advances (honest : Honest tree world qname qtype)
    (track : OnTrack tree qname qtype position) :
    Returns (round world nested deeper qname qtype position)
      (Advances tree world qname qtype position) := by
  rcases Nat.lt_or_ge (position.zoneDepth + 1) qname.labelCount with short | last
  · exact round_intermediate honest track short
  · exact round_full honest track last

theorem roundsFrom_pos (tree : Tree) (qname : DnsName) (qtype : UInt16) (depth : Nat) :
    0 < roundsFrom tree qname qtype depth := by
  unfold roundsFrom
  split <;> omega

def Concludes (tree : Tree) (world : World) (qname : DnsName) (qtype : UInt16) (needed left : Nat)
    (result : Except ForwardError Message) : Prop :=
  if needed ≤ left then
    ∃ msg, Authoritative tree world qname qtype msg ∧ result = .ok (finalize msg qname qtype)
  else result = .error .timeout

theorem rounds_conclude (honest : Honest tree world qname qtype) (left : Nat) :
    ∀ position, OnTrack tree qname qtype position →
      Returns (rounds world nested deeper qname qtype left position)
        (Concludes tree world qname qtype (roundsFrom tree qname qtype position.zoneDepth)
          left) := by
  induction left with
  | zero =>
    intro position track
    have some := roundsFrom_pos tree qname qtype position.zoneDepth
    refine Returns.pure ?_
    rw [Concludes, if_neg (by omega)]
  | succ left ih =>
    intro position track
    refine (round_advances honest track).bind fun next advanced => ?_
    obtain ⟨one, msg, authoritative, rfl⟩ | ⟨position', rfl, track', fewer⟩ := advanced
    · refine Returns.pure ?_
      rw [Concludes, if_pos (by omega)]
      exact ⟨msg, authoritative, rfl⟩
    · have rest := ih position' track'
      unfold Concludes at rest ⊢
      rw [fewer]
      simpa only [Nat.add_le_add_iff_right] using rest

end Walk

/-! ## From the root -/

theorem onTrack_root (tree : Tree) (qname : DnsName) (qtype : UInt16) :
    OnTrack tree qname qtype ⟨roots, .root, 0, true⟩ where
  minimize := rfl
  depth := Nat.zero_le _
  apex := tree.root
  encloses := (DnsName.endsWith_iff qname .root).mpr (List.nil_suffix)
  above := Nat.le_refl _
  deepest := fun _ _ _ shallow => shallow
  parent := fun _ isRoot => isRoot.symm
  filled := List.cons_ne_nil _ _
  served := tree.hints

theorem cachedStart_empty (world : World) (qname : DnsName) (minSkip : Nat) :
    Meets (cachedStart world qname minSkip) fun session found _ =>
      session.delegations = HashMap.empty → found = none := by
  intro session empty
  refine List.findSome?_eq_none_iff.mpr fun skip _ => ?_
  split
  · rfl
  rename_i candidate made
  split
  · rfl
  · rename_i stored
    have kept : session.delegations.get? candidate = some _ := stored
    rw [empty, HashMap.get?_empty] at kept
    cases kept

theorem start_empty (world : World) (qname : DnsName) (qtype : UInt16) :
    Meets (start world qname qtype) fun session position _ =>
      session.delegations = HashMap.empty → position = ⟨roots, .root, 0, true⟩ := by
  refine (cachedStart_empty world qname _).bind fun session found => ?_
  cases found with
  | none => exact fun _ _ _ => rfl
  | some entry => exact fun _ nothing empty => by cases nothing empty

theorem resolveDepth_concludes {tree : Tree} {world : World} {qname : DnsName} {qtype : UInt16}
    (honest : Honest tree world qname qtype) (left : Nat) {session : Session}
    (empty : session.delegations = HashMap.empty) :
    Concludes tree world qname qtype (roundsNeeded tree qname qtype) maxReferrals
      (resolveDepth world (left + 1) qname qtype session).1 := by
  have whole : Meets (resolveDepth world (left + 1) qname qtype) fun session result _ =>
      session.delegations = HashMap.empty →
        Concludes tree world qname qtype (roundsNeeded tree qname qtype) maxReferrals result := by
    refine (start_empty world qname qtype).bind fun _ position middle opened empty => ?_
    rw [opened empty]
    exact rounds_conclude honest maxReferrals _ (onTrack_root tree qname qtype) middle
  exact whole session empty

/-- With empty caches the answer is found exactly where the rounds suffice. -/
theorem resolveDepth_honest_iff {tree : Tree} {world : World} {qname : DnsName} {qtype : UInt16}
    (honest : Honest tree world qname qtype) (left : Nat) {session : Session}
    (empty : session.delegations = HashMap.empty) :
    (∃ msg, Authoritative tree world qname qtype msg ∧
      (resolveDepth world (left + 1) qname qtype session).1 =
        .ok (finalize msg qname qtype)) ↔ roundsNeeded tree qname qtype ≤ maxReferrals := by
  have outcome := resolveDepth_concludes honest left empty
  unfold Concludes at outcome
  split at outcome
  · rename_i enough
    exact iff_of_true outcome enough
  rename_i few
  refine iff_of_false ?_ few
  rintro ⟨msg, _, resolved⟩
  rw [outcome] at resolved
  cases resolved

def testTree : Tree where
  zone name := name.isRoot || decide (name = testName)
  serves server zone := zone = .root ∧ server ∈ roots ∨ zone = testName ∧
    server = ⟨.v4 (.new 10 0 0 53), dnsPort⟩
  root := rfl
  hints := fun _ member => .inl ⟨rfl, member⟩

def quietReply : Message := Message.new 7 Flags.default

def testReferral : Message :=
  { quietReply with
    authorities := [{ name := testName, class_ := classIn, ttl := 60, rdata := .ns serverName }]
    additionals := [{ name := serverName, class_ := classIn, ttl := 60
                      rdata := .a (.new 10 0 0 53) }] }

def quietWorld : World where
  now := fun reads => reads
  reply := fun _ server name rtype =>
    if server ∈ roots ∧ name.endsWith testName = true ∧ ¬ (rtype = typeDs ∧ name = testName) then
      .ok testReferral
    else .ok quietReply

theorem testReferral_refers : Refers testTree testReferral .root testName where
  unanswered := rfl
  named := List.cons_ne_nil _ _
  owned := fun record member _ => by rw [List.mem_singleton.mp member]
  reached := ⟨_, List.mem_singleton_self _, by decide, by decide, _, .inl ⟨_, rfl, rfl⟩⟩
  served := by
    intro record member _ address addressed
    rw [List.mem_singleton.mp member] at addressed
    obtain ⟨ip, data, rfl⟩ | ⟨ip, data, rfl⟩ := addressed
    · cases data
      exact .inr ⟨rfl, rfl⟩
    · cases data

theorem quietReply_vacant : Vacant quietReply := ⟨rfl, List.forall_mem_nil _⟩

theorem quietReply_settled (zone qname : DnsName) (qtype : UInt16) :
    Settled quietReply zone qname qtype :=
  ⟨List.forall_mem_nil _, List.forall_mem_nil _⟩

theorem nextCut_root_iff {cut : DnsName} :
    testTree.NextCut .root name cut ↔ cut = testName ∧ name.endsWith testName = true := by
  have only : ∀ other, testTree.zone other = true → 0 < other.labelCount → other = testName := by
    intro other apex below
    rcases Bool.or_eq_true_iff.mp apex with isRoot | isTest
    · rw [DnsName.labelCount, List.isEmpty_iff.mp isRoot] at below
      cases below
    · exact of_decide_eq_true isTest
  constructor
  · intro next
    have same := only cut next.apex next.below
    exact ⟨same, same ▸ next.encloses⟩
  · rintro ⟨rfl, encloses⟩
    refine ⟨rfl, encloses, by decide, fun other apex _ below => ?_⟩
    rw [only other apex below]

theorem not_nextCut_test {cut : DnsName} : ¬ testTree.NextCut testName name cut := by
  intro next
  have below := next.below
  rcases Bool.or_eq_true_iff.mp next.apex with isRoot | isTest
  · rw [DnsName.labelCount, DnsName.labelCount, List.isEmpty_iff.mp isRoot] at below
    cases below
  · rw [of_decide_eq_true isTest] at below
    exact Nat.lt_irrefl _ below

theorem quietWorld_honest (qname : DnsName) (qtype : UInt16) :
    Honest testTree quietWorld qname qtype where
  refers := by
    intro asked server zone name rtype cut serves _ next notDs
    obtain ⟨rfl, member⟩ | ⟨rfl, rfl⟩ := serves
    · obtain ⟨rfl, encloses⟩ := nextCut_root_iff.mp next
      exact ⟨testReferral, if_pos ⟨member, encloses, fun both => notDs ⟨both.1, both.2.symm⟩⟩,
        testReferral_refers⟩
    · exact absurd next not_nextCut_test
  probes := by
    intro asked server zone name serves _ _ _ none
    refine ⟨quietReply, if_neg ?_, quietReply_vacant⟩
    rintro ⟨member, encloses, _⟩
    obtain ⟨rfl, _⟩ | ⟨rfl, rfl⟩ := serves
    · exact none testName (nextCut_root_iff.mpr ⟨rfl, encloses⟩)
    · exact absurd member (by decide)
  answers := by
    intro asked server zone serves responsible
    refine ⟨quietReply, if_neg ?_, quietReply_settled _ _ _⟩
    rintro ⟨member, encloses, notDs⟩
    obtain ⟨rfl, _⟩ | ⟨rfl, rfl⟩ := serves
    · obtain ⟨isDs, same⟩ := responsible.last testName (nextCut_root_iff.mpr ⟨rfl, encloses⟩)
      exact notDs ⟨isDs, same.symm⟩
    · exact absurd member (by decide)

theorem resolveDepth_honest_ex_test :
    ∃ msg, Authoritative testTree quietWorld askedName typeA msg ∧
      (resolveDepth quietWorld (maxNesting + 1) askedName typeA Session.new).1 =
        .ok (finalize msg askedName typeA) :=
  (resolveDepth_honest_iff (quietWorld_honest askedName typeA) maxNesting rfl).mpr (by decide)

/-- The name for the reverse lookup of the IPv6 address of zeros, in the root zone. -/
def reverseName : DnsName :=
  ⟨List.replicate 32 [48] ++ [[105, 112, 54], [97, 114, 112, 97]], by decide⟩

/-- Thirty rounds reveal 30 of 34 labels; there is no zone cut on the way. -/
theorem reverseName_timeout :
    Honest testTree quietWorld reverseName typePtr ∧
      (∀ cut, ¬ testTree.NextCut .root reverseName cut) ∧
      (resolveDepth quietWorld (maxNesting + 1) reverseName typePtr Session.new).1 =
        .error .timeout := by
  have honest := quietWorld_honest reverseName typePtr
  have outside : reverseName.endsWith testName ≠ true := by decide
  refine ⟨honest, fun cut next => outside (nextCut_root_iff.mp next).2, ?_⟩
  have outcome : Concludes testTree quietWorld reverseName typePtr
      (roundsNeeded testTree reverseName typePtr) maxReferrals
      (resolveDepth quietWorld (maxNesting + 1) reverseName typePtr Session.new).1 :=
    resolveDepth_concludes honest maxNesting rfl
  have many : ¬ roundsNeeded testTree reverseName typePtr ≤ maxReferrals := by decide
  rw [Concludes, if_neg many] at outcome
  exact outcome

end Rdns.Resolver.Recursor
