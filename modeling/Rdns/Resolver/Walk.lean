import Rdns.Resolver.Validator

/-!
# The walk to the trust anchor

What a call of `dnskeys` can do, said once as a relation: the walk stops at the
depth limit, answers from the table, settles a zone on its own, hands down the
verdict on the parent, or reads a DS reply with the parent's keys.  From it the
facts the sections rest on: entries of the table never change, the result is in
the table, and an insecure entry lies at or above the zone asked for.
-/

set_option autoImplicit false

namespace Rdns.Resolver

open Rdns.Lib Rdns.Proto Rdns.Dnssec

/-! ## The state -/

@[simp] theorem Ctx.get?_remember (ctx : Ctx) (zone other : DnsName)
    (result : Option (List Bytes)) : (ctx.remember zone result).keys.get? other =
      if other = zone then some result else ctx.keys.get? other :=
  HashMap.get?_insert _ _ _ _

@[simp] theorem Ctx.asked_remember (ctx : Ctx) (zone : DnsName) (result : Option (List Bytes)) :
    (ctx.remember zone result).asked = ctx.asked := rfl

@[simp] theorem Ctx.keys_ask (ctx : Ctx) (name : DnsName) (qtype : UInt16) :
    (ctx.ask name qtype).keys = ctx.keys := rfl

@[simp] theorem Ctx.asked_ask (ctx : Ctx) (name : DnsName) (qtype : UInt16) :
    (ctx.ask name qtype).asked = (name, qtype) :: ctx.asked := rfl

@[simp] theorem Ctx.get?_enter (ctx : Ctx) (zone other : DnsName) :
    (ctx.enter zone).keys.get? other = if other = zone then some none else ctx.keys.get? other :=
  Ctx.get?_remember ctx zone other none

@[simp] theorem Ctx.asked_enter (ctx : Ctx) (zone : DnsName) :
    (ctx.enter zone).asked = (zone, typeDnskey) :: ctx.asked := rfl

section Entries

variable {ctx : Ctx} {zone other : DnsName} {value result : Option (List Bytes)}

theorem ne_of_missed (missed : ctx.keys.get? zone = none)
    (known : ctx.keys.get? other = some value) : other ≠ zone := by
  rintro rfl
  rw [missed] at known
  cases known

theorem get?_remember_of_placed {keys : List Bytes} (placed : ctx.keys.get? zone = some none)
    (entry : ctx.keys.get? other = some (some keys)) :
    (ctx.remember zone result).keys.get? other = some (some keys) := by
  have apart : other ≠ zone := by
    rintro rfl
    rw [placed] at entry
    cases entry
  simpa [apart] using entry

end Entries

def Ctx.Grows (ctx ctx' : Ctx) : Prop :=
  ∀ zone value, ctx.keys.get? zone = some value → ctx'.keys.get? zone = some value

theorem Ctx.Grows.refl (ctx : Ctx) : ctx.Grows ctx := fun _ _ known => known

theorem Ctx.Grows.trans {first second third : Ctx} (early : first.Grows second)
    (late : second.Grows third) : first.Grows third :=
  fun zone value known => late zone value (early zone value known)

theorem parent_length {zone parent : DnsName} (above : zone.parent = some parent) :
    zone.labels.length = parent.labels.length + 1 := by
  unfold DnsName.parent at above
  split at above
  · cases above
  rename_i nonempty
  cases above
  have positive : 0 < zone.labels.length := by
    rw [List.length_pos_iff]
    simpa using nonempty
  simp only [List.length_drop]
  omega

theorem shorter_parent {zone parent : DnsName} {pending : List DnsName}
    (above : zone.parent = some parent)
    (longer : ∀ other ∈ pending, zone.labels.length < other.labels.length) :
    ∀ other ∈ zone :: pending, parent.labels.length < other.labels.length := by
  have length := parent_length above
  refine List.forall_mem_cons.mpr ⟨by omega, fun other member => ?_⟩
  have := longer other member
  omega

variable (crypto : Crypto) (fetcher : Fetcher) (self : Validator)

/-! ## What a call can do -/

/-- A zone settled without its parent: no DNSKEY reply, a reply without keys, a
trust anchor, or the root without one. -/
inductive Alone (zone : DnsName) (asked : List SetKey) : Option (List Bytes) → Prop
  | unanswered {error : ForwardError} (reply : fetcher asked zone typeDnskey = .error error) :
      Alone zone asked none
  | keyless {msg : Message} (reply : fetcher asked zone typeDnskey = .ok msg)
      (empty : dnskeyData msg = []) : Alone zone asked none
  | anchored {msg : Message} {anchor : TrustAnchor}
      (reply : fetcher asked zone typeDnskey = .ok msg) (listed : anchor ∈ self.anchors)
      (same : anchor.zone = zone) :
      Alone zone asked (some (vouchedKeys crypto zone msg [anchor.dsRdata]))
  | orphan (top : zone.parent = none) : Alone zone asked (some [])

/-- `Walk budget zone ctx result ctx'`: a call of `dnskeys` for the zone in `ctx`
may return `result` and leave `ctx'`. -/
inductive Walk : Nat → DnsName → Ctx → Option (List Bytes) → Ctx → Prop
  | tooDeep (zone : DnsName) (ctx : Ctx) : Walk 0 zone ctx none ctx
  | cached {budget : Nat} {zone : DnsName} {ctx : Ctx} {result : Option (List Bytes)}
      (found : ctx.keys.get? zone = some result) : Walk (budget + 1) zone ctx result ctx
  | alone {budget : Nat} {zone : DnsName} {ctx : Ctx} {result : Option (List Bytes)}
      (missed : ctx.keys.get? zone = none) (own : Alone crypto fetcher self zone ctx.asked result) :
      Walk (budget + 1) zone ctx result ((ctx.enter zone).remember zone result)
  | inherited {budget : Nat} {zone parent : DnsName} {ctx ctx' : Ctx}
      {result : Option (List Bytes)} (missed : ctx.keys.get? zone = none)
      (above : zone.parent = some parent) (walk : Walk budget parent (ctx.enter zone) result ctx')
      (keyless : result = none ∨ result = some []) :
      Walk (budget + 1) zone ctx result (ctx'.remember zone result)
  | judged {budget : Nat} {zone parent : DnsName} {ctx ctx' : Ctx} {keys : List Bytes}
      {result : Option (List Bytes)} (missed : ctx.keys.get? zone = none)
      (above : zone.parent = some parent)
      (walk : Walk budget parent (ctx.enter zone) (some keys) ctx') (nonempty : keys ≠ [])
      (verdict : (∃ error, fetcher ctx'.asked zone typeDs = .error error ∧ result = some []) ∨
        ∃ msg reply, fetcher ctx.asked zone typeDnskey = .ok msg ∧
          fetcher ctx'.asked zone typeDs = .ok reply ∧
          result = settle crypto zone msg (dsOf crypto zone reply keys)) :
      Walk (budget + 1) zone ctx result ((ctx'.ask zone typeDs).remember zone result)

/-- A missed zone below a parent: the walk goes there first. -/
theorem walk_delegated {budget : Nat} {zone parent : DnsName} {ctx ctx' : Ctx} {msg : Message}
    {keys : Option (List Bytes)} (missed : ctx.keys.get? zone = none)
    (reply : fetcher ctx.asked zone typeDnskey = .ok msg) (above : zone.parent = some parent)
    (called : self.dnskeys crypto fetcher budget parent (ctx.enter zone) = (keys, ctx'))
    (walk : Walk crypto fetcher self budget parent (ctx.enter zone) keys ctx') :
    let ds := delegatedDs crypto fetcher (self.dnskeys crypto fetcher budget) zone (ctx.enter zone)
    Walk crypto fetcher self (budget + 1) zone ctx (settle crypto zone msg ds.1)
      (ds.2.remember zone (settle crypto zone msg ds.1)) := by
  simp only [delegatedDs, above, called]
  match keys with
  | none => exact .inherited missed above walk (.inl rfl)
  | some [] => exact .inherited missed above walk (.inr rfl)
  | some (key :: keys) =>
    have nonempty := List.cons_ne_nil key keys
    simp only
    cases dsReply : fetcher ctx'.asked zone typeDs with
    | error error => exact .judged missed above walk nonempty (.inl ⟨error, dsReply, rfl⟩)
    | ok ds => exact .judged missed above walk nonempty (.inr ⟨msg, ds, reply, dsReply, rfl⟩)

/-- The relation says all that `dnskeys` does. -/
theorem walk_dnskeys (budget : Nat) (zone : DnsName) (ctx : Ctx) :
    Walk crypto fetcher self budget zone ctx (self.dnskeys crypto fetcher budget zone ctx).1
      (self.dnskeys crypto fetcher budget zone ctx).2 := by
  induction budget generalizing zone ctx with
  | zero => exact .tooDeep zone ctx
  | succ budget ih =>
    rw [Validator.dnskeys]
    cases found : ctx.keys.get? zone with
    | some cached => exact .cached found
    | none =>
      simp only
      cases reply : fetcher ctx.asked zone typeDnskey with
      | error error => exact .alone found (.unanswered reply)
      | ok msg =>
        simp only
        by_cases empty : dnskeyData msg = []
        · rw [if_pos (by simp [empty])]
          exact .alone found (.keyless reply empty)
        rw [if_neg (by simp [empty])]
        cases listed : self.anchors.find? fun anchor => anchor.zone = zone with
        | some anchor =>
          have same : anchor.zone = zone := by simpa using List.find?_some listed
          exact .alone found (.anchored reply (List.mem_of_find?_eq_some listed) same)
        | none =>
          cases above : zone.parent with
          | none =>
            simp only [delegatedDs, above]
            exact .alone found (.orphan above)
          | some parent =>
            exact walk_delegated crypto fetcher self found reply above rfl
              (ih parent (ctx.enter zone))

namespace Walk

variable {crypto fetcher self}
variable {budget : Nat} {zone : DnsName} {ctx ctx' : Ctx} {result : Option (List Bytes)}

theorem grows (walk : Walk crypto fetcher self budget zone ctx result ctx') :
    ctx.Grows ctx' := by
  induction walk with
  | tooDeep => exact .refl _
  | cached => exact .refl _
  | @alone _ zone _ _ missed _ =>
    intro other value known
    have differs := ne_of_missed missed known
    simpa [differs] using known
  | @inherited _ zone _ _ _ _ missed _ _ _ ih | @judged _ zone _ _ _ _ _ missed _ _ _ _ ih =>
    intro other value known
    have differs := ne_of_missed missed known
    simpa [differs] using ih other value (by simpa [differs] using known)

theorem records (walk : Walk crypto fetcher self (budget + 1) zone ctx result ctx') :
    ctx'.keys.get? zone = some result := by
  cases walk with
  | cached found => exact found
  | alone _ _ => simp
  | inherited _ _ _ _ => simp
  | judged _ _ _ _ _ => simp

end Walk

end Rdns.Resolver
