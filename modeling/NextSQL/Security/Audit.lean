import Mathlib.Data.List.Induction

/-!
# The audit chain

An audit file has one event a line. After a prefix of older events without
chain fields, every event carries its number, the hash of the event before it
and its own hash, and from some event on a signature. `verifyAuditScanner`
reads the file line by line and remembers the first thing that is wrong.

The hash of the last event determines the chain: two files that verify and end
in the same hash have the same chained events, up to what no hash covers
(`chained_events_agree`). That is the signature and the id of its key, and the
spelling of the two hashes: upper and lower case digits decode to the same
bytes. A file in which these are edited still verifies (`signature_edited`).

Lines are taken as the scanner returns them, trimmed and without the blank
ones. The offsets, the tail of events kept for a viewer and the classification
of a torn last line are left out.
-/

namespace NextSQL.Security

structure Event where
  time : Int := 0
  actor : String := ""
  action : String := ""
  object : String := ""
  outcome : String := ""
  remote : String := ""
  identitySource : String := ""
  chainVersion : UInt8 := 0
  seq : UInt64 := 0
  prevHash : String := ""
  hash : String := ""
  sig : String := ""
  keyID : UInt32 := 0
deriving DecidableEq

def actionAuditSigningEnabled : String := "audit.signing.enabled"

def auditChainVersion : UInt8 := 1

/-- The functions of other packages. The hash covers its arguments under a fixed domain; a
signature is decodable if it is base64 of the right length. -/
structure Suite (Line Text Hash : Type) where
  unmarshal : Line → Option Event
  marshal : Event → Option Text
  decodeHash : String → Option Hash
  auditChainHash : Hash → UInt64 × Text → Hash
  decodableSig : String → Bool

def canonicalizeForHash (ev : Event) : Event :=
  { ev with seq := 0, prevHash := "", hash := "", sig := "", keyID := 0 }

/-- An event without chain fields. -/
def Event.legacy (ev : Event) : Bool :=
  ev.chainVersion = 0 ∧ ev.seq = 0 ∧ ev.prevHash = "" ∧ ev.hash = "" ∧ ev.sig = "" ∧ ev.keyID = 0

/-! ## Chains -/

variable {Line Text Hash : Type}

/-- The event follows `prev`, and its hash covers `canonical`. -/
structure Follows (su : Suite Line Text Hash) (prev : Hash) (ev : Event) (canonical : Text) :
    Prop where
  started : ev.seq ≠ 0
  prevHash : su.decodeHash ev.prevHash = some prev
  encoded : su.marshal (canonicalizeForHash ev) = some canonical
  hash : su.decodeHash ev.hash = some (su.auditChainHash prev (ev.seq, canonical))

/-- The events form a chain that ends in the hash `last`; `expect` is the number after it. -/
inductive Chained (su : Suite Line Text Hash) (zero : Hash) : List Event → UInt64 → Hash → Prop
  | nil : Chained su zero [] 1 zero
  | snoc {evs : List Event} {prev last : Hash} {ev : Event} {canonical : Text} {expect : UInt64}
      (before : Chained su zero evs ev.seq prev) (follows : Follows su prev ev canonical)
      (ends : su.auditChainHash prev (ev.seq, canonical) = last) (next : ev.seq + 1 = expect) :
      Chained su zero (evs ++ [ev]) expect last

/-- What a hash covers of an event: all but the signature and its key, and the hashes as
they decode. -/
def covered (su : Suite Line Text Hash) (ev : Event) : Event × UInt64 × Option Hash × Option Hash :=
  (canonicalizeForHash ev, ev.seq, su.decodeHash ev.prevHash, su.decodeHash ev.hash)

/-- The last event of a chain has the hash in which it ends. -/
theorem Chained.follows_last {zero last : Hash} {evs : List Event} {expect : UInt64}
    {su : Suite Line Text Hash} {ev : Event} (chain : Chained su zero evs expect last)
    (isLast : evs.getLast? = some ev) : ∃ prev canonical, Follows su prev ev canonical ∧
      su.auditChainHash prev (ev.seq, canonical) = last ∧ ev.seq + 1 = expect := by
  cases chain with
  | nil => cases isLast
  | snoc _ follows ends next =>
    rw [List.getLast?_concat] at isLast
    cases isLast
    exact ⟨_, _, follows, ends, next⟩

section Agreement

variable {su : Suite Line Text Hash} {ev : Event}
  {zero : Hash} {evs : List Event} {expect : UInt64} {last : Hash}
  (collisionFree : Function.Injective2 su.auditChainHash)
  (faithful : ∀ {ev ev' b}, su.marshal ev = some b → su.marshal ev' = some b → ev = ev')

include collisionFree faithful

/-- Two events with the same hash agree, and so do the hashes before them. -/
theorem Follows.agree {prev prev' : Hash} {ev' : Event} {canonical canonical' : Text}
    (follows : Follows su prev ev canonical) (follows' : Follows su prev' ev' canonical')
    (same : su.auditChainHash prev (ev.seq, canonical) =
      su.auditChainHash prev' (ev'.seq, canonical')) :
    prev = prev' ∧ ev.seq = ev'.seq ∧ covered su ev = covered su ev' := by
  obtain ⟨before, link⟩ := collisionFree same
  obtain ⟨seq, bytes⟩ := Prod.mk.inj link
  refine ⟨before, seq, ?_⟩
  rw [covered, covered, faithful follows.encoded (bytes ▸ follows'.encoded), seq,
    follows.prevHash, follows'.prevHash, follows.hash, follows'.hash, before, link]

/-- **Two chains with the same end agree**, from their last events back. -/
theorem Chained.agree (chain : Chained su zero evs expect last) :
    ∀ {evs'}, Chained su zero evs' expect last → evs.map (covered su) = evs'.map (covered su) := by
  induction chain with
  | nil =>
    intro evs' other
    cases other with
    | nil => rfl
    | snoc _ follows _ next => exact absurd (by grind) follows.started
  | snoc before follows ends next ih =>
    intro evs' other
    cases other with
    | nil => exact absurd (by grind) follows.started
    | snoc before' follows' ends' next' =>
      obtain ⟨rfl, seq, covers⟩ :=
        follows.agree collisionFree faithful follows' (ends.trans ends'.symm)
      rw [List.map_append, List.map_append, ih (seq ▸ before'), List.map_singleton,
        List.map_singleton, covers]

end Agreement

/-! ## The scan -/

/-- The report and the variables of the scan. -/
structure Scan (Hash : Type) where
  lines : Nat := 0
  legacy : Nat := 0
  chained : Nat := 0
  signed : Nat := 0
  prevHash : Hash
  expectSeq : UInt64 := 1
  chainStarted : Bool := false
  signingRequired : Bool := false
  /-- The first bad line and its problem. -/
  bad : Option (Nat × String) := none

namespace Scan

variable {s : Scan Hash} {wrong : Bool} {problem : String}

/-- Note a problem of the current line, if it is the first. -/
def failIf (s : Scan Hash) (wrong : Bool) (problem : String) : Scan Hash :=
  if wrong && s.bad.isNone then { s with bad := some (s.lines, problem) } else s

def fail (s : Scan Hash) (problem : String) : Scan Hash := s.failIf true problem

@[simp] theorem failIf_bad :
    (s.failIf wrong problem).bad = none ↔ s.bad = none ∧ wrong = false := by
  unfold failIf
  cases wrong <;> cases found : s.bad <;> simp [found]

@[simp] theorem fail_bad : (s.fail problem).bad ≠ none := by
  simp [fail]

@[simp] theorem failIf_prevHash : (s.failIf wrong problem).prevHash = s.prevHash := by
  unfold failIf
  split <;> rfl

@[simp] theorem failIf_expectSeq : (s.failIf wrong problem).expectSeq = s.expectSeq := by
  unfold failIf
  split <;> rfl

/-- The checks of the signature fields. `verify` checks a signature, if keys are given. -/
def checkSignature (su : Suite Line Text Hash) (verify : Option (UInt32 → Hash → String → Bool))
    (s : Scan Hash) (ev : Event) (wantHash : Hash) : Scan Hash :=
  let paired : Bool := (ev.sig = "") = (ev.keyID = 0)
  let hasSig := paired && (ev.sig ≠ "" || ev.keyID ≠ 0)
  let s := s.failIf (!paired) "signature and key_id must be present together"
  let s :=
    if ev.action = actionAuditSigningEnabled then
      { s with signingRequired := true }.failIf (!hasSig) "audit signing transition is not signed"
    else
      s.failIf (hasSig && !s.signingRequired)
        "signed record appears before the audit signing transition"
  let s := s.failIf (s.signingRequired && !hasSig)
    "unsigned record appears after audit signing was enabled"
  if hasSig then
    let s := { s with signed := s.signed + 1 }
    if su.decodableSig ev.sig then
      s.failIf (verify.any fun v => !v ev.keyID wantHash ev.sig)
        s!"signature verification failed for key id {ev.keyID}"
    else s.fail "invalid signature encoding"
  else s

variable {su : Suite Line Text Hash} {verify : Option (UInt32 → Hash → String → Bool)} {ev : Event}

theorem checkSignature_bad {wantHash : Hash}
    (fine : (s.checkSignature su verify ev wantHash).bad = none) : s.bad = none := by
  unfold checkSignature at fine
  dsimp only at fine
  split_ifs at fine <;> simp_all

variable [DecidableEq Hash]

/-- The checks of an event with chain fields. -/
def chainedEvent (su : Suite Line Text Hash) (verify : Option (UInt32 → Hash → String → Bool))
    (s : Scan Hash) (ev : Event) : Scan Hash :=
  let s := { s with chainStarted := true, chained := s.chained + 1 }
  if ev.chainVersion ≠ auditChainVersion then s.fail s!"unsupported audit chain version {ev.chainVersion}"
  else if ev.seq = 0 ∨ ev.hash = "" ∨ ev.prevHash = "" then s.fail "incomplete hash-chain fields"
  else
    let s := s.failIf (ev.seq ≠ s.expectSeq)
      s!"sequence gap: expected {s.expectSeq}, got {ev.seq} (a retained line may be missing)"
    match su.decodeHash ev.prevHash with
    | none => s.fail "invalid prev_hash encoding"
    | some gotPrevHash =>
      let s := s.failIf (gotPrevHash ≠ s.prevHash)
        "prev_hash does not match the previous chained line"
      match su.marshal (canonicalizeForHash ev) with
      | none => s.fail "could not re-encode line for hashing"
      | some canonical =>
        let wantHash := su.auditChainHash s.prevHash (ev.seq, canonical)
        let s := s.failIf (su.decodeHash ev.hash ≠ some wantHash)
          "hash mismatch (line was modified after being written)"
        { s.checkSignature su verify ev wantHash with
          prevHash := wantHash, expectSeq := ev.seq + 1 }

def line (su : Suite Line Text Hash) (verify : Option (UInt32 → Hash → String → Bool))
    (s : Scan Hash) (l : Line) : Scan Hash :=
  let s := { s with lines := s.lines + 1 }
  match su.unmarshal l with
  | none => s.fail "malformed JSON line"
  | some ev =>
    if ev.legacy then
      { s with legacy := s.legacy + 1 }.failIf s.chainStarted
        "legacy/unsigned record appears after the hash chain began"
    else s.chainedEvent su verify ev

/-- The first chained line follows the hash `zero`. -/
def verifyAuditScanner (su : Suite Line Text Hash) (zero : Hash)
    (verify : Option (UInt32 → Hash → String → Bool)) (file : List Line) : Scan Hash :=
  let s := file.foldl (line su verify) { prevHash := zero }
  if verify.isSome && !s.signingRequired && s.bad.isNone then
    { s with bad := some (max s.lines 1, "no signed audit transition is present") }
  else s

/-! ## What a file that verifies contains -/

/-- The events of a file that carry chain fields. -/
def chainedEvents (su : Suite Line Text Hash) (file : List Line) : List Event :=
  (file.filterMap su.unmarshal).filter fun ev => !ev.legacy

/-- An event that passes its checks follows the one before it. -/
theorem chainedEvent_bad (fine : (s.chainedEvent su verify ev).bad = none) :
    s.bad = none ∧ ev.seq = s.expectSeq ∧ ∃ canonical, Follows su s.prevHash ev canonical ∧
      su.auditChainHash s.prevHash (ev.seq, canonical) = (s.chainedEvent su verify ev).prevHash ∧
      ev.seq + 1 = (s.chainedEvent su verify ev).expectSeq := by
  unfold chainedEvent at fine ⊢
  split_ifs at fine ⊢ with version fields
  · exact absurd fine fail_bad
  · exact absurd fine fail_bad
  cases decoded : su.decodeHash ev.prevHash with
  | none =>
    simp only [decoded] at fine
    exact absurd fine fail_bad
  | some got =>
    cases encoded : su.marshal (canonicalizeForHash ev) with
    | none =>
      simp only [decoded, encoded] at fine
      exact absurd fine fail_bad
    | some canonical =>
      simp only [decoded, encoded] at fine ⊢
      have checks := checkSignature_bad fine
      simp only [failIf_bad, failIf_prevHash, decide_eq_false_iff_not, not_not] at checks
      obtain ⟨⟨⟨good, seq⟩, prev⟩, hash⟩ := checks
      rw [not_or] at fields
      exact ⟨good, seq, canonical, ⟨fields.1, decoded.trans (congrArg some prev), encoded, hash⟩,
        by simp, by simp⟩

variable {zero : Hash} {file : List Line}

/-- As long as nothing is wrong, the scan walks a chain. -/
theorem chained_of_scan (fine : (file.foldl (line su verify) { prevHash := zero }).bad = none) :
    Chained su zero (chainedEvents su file)
      (file.foldl (line su verify) { prevHash := zero }).expectSeq
      (file.foldl (line su verify) { prevHash := zero }).prevHash := by
  induction file using List.reverseRecOn with
  | nil => exact .nil
  | append_singleton file l ih =>
    rw [List.foldl_append, List.foldl_cons, List.foldl_nil] at fine ⊢
    generalize file.foldl (line su verify) { prevHash := zero } = s at fine ih
    unfold line at fine ⊢
    cases read : su.unmarshal l with
    | none =>
      simp only [read] at fine
      exact absurd fine fail_bad
    | some ev =>
      simp only [read] at fine ⊢
      by_cases legacy : ev.legacy
      · simp only [legacy, if_true, failIf_bad, failIf_prevHash, failIf_expectSeq] at fine ⊢
        simpa [chainedEvents, read, legacy] using ih fine.1
      · simp only [legacy, if_false, Bool.false_eq_true] at fine ⊢
        obtain ⟨good, seq, canonical, follows, ends, next⟩ := chainedEvent_bad fine
        simpa [chainedEvents, read, legacy] using Chained.snoc (seq ▸ ih good) follows ends next

theorem bad_of_verified (verified : (verifyAuditScanner su zero verify file).bad = none) :
    (file.foldl (line su verify) { prevHash := zero }).bad = none := by
  unfold verifyAuditScanner at verified
  dsimp only at verified
  split at verified
  · cases verified
  · exact verified

/-- **The hash of the last chained event determines the chained events** of a file that
verifies, up to what no hash covers. -/
theorem chained_events_agree {zero : Hash} {verify' : Option (UInt32 → Hash → String → Bool)}
    (collisionFree : Function.Injective2 su.auditChainHash)
    (faithful : ∀ {ev ev' b}, su.marshal ev = some b → su.marshal ev' = some b → ev = ev')
    {file file' : List Line} {ev ev' : Event}
    (verified : (verifyAuditScanner su zero verify file).bad = none)
    (verified' : (verifyAuditScanner su zero verify' file').bad = none)
    (isLast : (chainedEvents su file).getLast? = some ev)
    (isLast' : (chainedEvents su file').getLast? = some ev')
    (same : su.decodeHash ev.hash = su.decodeHash ev'.hash) :
    (chainedEvents su file).map (covered su) = (chainedEvents su file').map (covered su) := by
  have chain := chained_of_scan (bad_of_verified verified)
  have chain' := chained_of_scan (bad_of_verified verified')
  obtain ⟨prev, canonical, follows, ends, next⟩ := chain.follows_last isLast
  obtain ⟨prev', canonical', follows', ends', next'⟩ := chain'.follows_last isLast'
  rw [follows.hash, follows'.hash] at same
  have hashes := Option.some.inj same
  have seq := (follows.agree collisionFree faithful follows' hashes).2.1
  rw [← ends', ← hashes, ends, ← next', ← seq, next] at chain'
  exact chain.agree collisionFree faithful chain'

/-- The event that starts the signed part, as its hash covers it. -/
def enabled : Event := { action := actionAuditSigningEnabled, chainVersion := auditChainVersion }

/-- A line and an encoded event are the event, and a hash is all that it covers. -/
def plain : Suite Event Event (List (UInt64 × Event)) where
  unmarshal := some
  marshal := some
  decodeHash text := if text = "0" then some [] else if text = "1" then some [(1, enabled)] else none
  auditChainHash prev link := link :: prev
  decodableSig _ := true

theorem plain_injective : Function.Injective2 plain.auditChainHash :=
  fun _ _ _ _ same => (List.cons.inj same).symm

def signedBy (sig : String) : Event :=
  { enabled with seq := 1, prevHash := "0", hash := "1", sig, keyID := 1 }

/-- Two files with one event each. -/
theorem chained_events_agree_signed : (chainedEvents plain [signedBy "a"]).map (covered plain) =
      (chainedEvents plain [signedBy "b"]).map (covered plain) := by
  have one : (verifyAuditScanner plain [] none [signedBy "a"]).bad = none := by decide +kernel
  have two : (verifyAuditScanner plain [] none [signedBy "b"]).bad = none := by decide +kernel
  exact chained_events_agree plain_injective (fun left right => Option.some.inj
    (left.trans right.symm)) one two rfl rfl rfl

/-- The signature of an event can be edited: the file still verifies and has the same
hash. -/
theorem signature_edited : Function.Injective2 plain.auditChainHash ∧
    (∀ {ev ev' b}, plain.marshal ev = some b → plain.marshal ev' = some b → ev = ev') ∧
    (verifyAuditScanner plain [] none [signedBy "a"]).bad = none ∧
    (verifyAuditScanner plain [] none [signedBy "b"]).bad = none ∧
    (signedBy "a").hash = (signedBy "b").hash ∧
    chainedEvents plain [signedBy "a"] ≠ chainedEvents plain [signedBy "b"] :=
  ⟨plain_injective, fun left right => Option.some.inj (left.trans right.symm), by decide +kernel,
    by decide +kernel, rfl, by decide +kernel⟩

end Scan

end NextSQL.Security
