import Etar.Paths
import Etar.ReaderRun

/-!
# The gates of a yielded entry

`Gates` are the checks a member has to pass to be handed out as the `k`-th entry. In every
history a call hands out only members that pass them, as the parser reports them, and a
member that does not is the end of the history's entries.
-/
namespace Etar

open AsyncIo Limit

variable (H : HeaderFields)

/-- The path passes: it is short enough, and one of the relative paths without `..`. -/
def PathGate (limits : SecurityLimits) (entry : TarEntry) : Prop :=
  ∃ path, entry.path = some path ∧ path.length ≤ limits.maxPathLen.toNat ∧ path ≠ [] ∧ 0 ∉ path ∧
    path.head? ≠ some 47 ∧ [46, 46] ∉ path.splitOn 47

/-- The kind passes: a file, a directory, or an allowed link that has a target. -/
def KindGate (limits : SecurityLimits) (entry : TarEntry) : Prop :=
  match H.entryType entry.header with
  | .regular | .continuous | .directory => True
  | .symlink => limits.allowSymlinks = true ∧ ∃ target, entry.linkName = some (some target)
  | .link => limits.allowHardlinks = true ∧ ∃ target, entry.linkName = some (some target)
  | _ => False

/-- What a member has to pass to be handed out as the `k`-th entry. -/
structure Gates (limits : SecurityLimits) (k : Nat) (entry : TarEntry) : Prop where
  few : k ≤ limits.maxEntries.toNat
  path : PathGate limits entry
  kind : KindGate H limits entry
  uid : ∃ uid, H.uid entry.header = some uid ∧ uid.toNat < 2 ^ 32
  gid : ∃ gid, H.gid entry.header = some gid ∧ gid.toNat < 2 ^ 32
  size : ∃ size, H.size entry.header = some size ∧ size.toNat ≤ limits.maxEntryBytes.toNat

/-- The kind and target are what the parser reports. -/
def KindAs (entry : TarEntry) : Kind → Prop
  | .file => H.entryType entry.header = .regular ∨ H.entryType entry.header = .continuous
  | .dir => H.entryType entry.header = .directory
  | .symlink target => H.entryType entry.header = .symlink ∧ entry.linkName = some (some target)
  | .hardlink target => H.entryType entry.header = .link ∧ entry.linkName = some (some target)

/-- A handed out entry is the parser's member. -/
structure Yields (entry : TarEntry) (e : ReadEntry) : Prop where
  path : entry.path = some e.path.bytes
  kind : KindAs H entry e.info.kind
  uid : (H.uid entry.header).map UInt64.toNat = some e.info.uid.toNat
  gid : (H.gid entry.header).map UInt64.toNat = some e.info.gid.toNat
  size : (H.size entry.header).map UInt64.toNat = some e.sizeBytes

variable {H}

theorem smallId_ok {id : UInt64} {n : UInt32} (h : smallId id = .ok n) : id.toNat < 2 ^ 32 ∧ id.toNat = n.toNat := by
  unfold smallId at h
  split at h
  · rename_i hlt
    cases h
    refine ⟨hlt, ?_⟩
    rw [UInt64.toNat_toUInt32, Nat.mod_eq_of_lt hlt]
  · cases h

theorem path_gate {limits : SecurityLimits} {entry : TarEntry} {p : SafePath} (h : validatePath entry limits = .ok p) :
    entry.path = some p.bytes ∧ PathGate limits entry := by
  unfold validatePath at h
  cases hraw : entry.path with
  | none =>
    rw [hraw] at h
    cases h
  | some raw =>
    rw [hraw] at h
    dsimp only at h
    split_ifs at h with hlong
    obtain rfl := bytes_of_new h
    have hvalid := p.valid
    rw [validate_eq] at hvalid
    split_ifs at hvalid with hnil hnul hroot hparent
    exact ⟨rfl, p.bytes, hraw, Nat.le_of_not_lt hlong, hnil, hnul, hroot, hparent⟩

/-- A link of any kind has a target. -/
theorem link_ok {entry : TarEntry} {k : List UInt8 → Kind} {kind : Kind} (h : (link entry).map k = .ok kind) :
    ∃ target, entry.linkName = some (some target) ∧ kind = k target := by
  unfold link at h
  split at h
  · cases h
  · cases h
  · rename_i name hname
    cases h
    exact ⟨name, hname, rfl⟩

theorem kind_gate {limits : SecurityLimits} {entry : TarEntry} {kind : Kind} (h : classify H entry limits = .ok kind) :
    KindAs H entry kind ∧ KindGate H limits entry := by
  unfold classify at h
  split at h
  · rename_i ht
    cases h
    exact ⟨Or.inl ht, by rw [KindGate, ht]; trivial⟩
  · rename_i ht
    cases h
    exact ⟨Or.inr ht, by rw [KindGate, ht]; trivial⟩
  · rename_i ht
    cases h
    exact ⟨ht, by rw [KindGate, ht]; trivial⟩
  · rename_i ht
    split_ifs at h with hallow
    obtain ⟨target, hname, rfl⟩ := link_ok h
    exact ⟨⟨ht, hname⟩, by rw [KindGate, ht]; exact ⟨hallow, target, hname⟩⟩
  · rename_i ht
    split_ifs at h with hallow
    obtain ⟨target, hname, rfl⟩ := link_ok h
    exact ⟨⟨ht, hname⟩, by rw [KindGate, ht]; exact ⟨hallow, target, hname⟩⟩
  · cases h

theorem ids_gate {entry : TarEntry} {kind : Kind} {info : Meta} (h : readMeta H entry kind = .ok info) :
    (∃ uid, H.uid entry.header = some uid ∧ uid.toNat < 2 ^ 32 ∧ uid.toNat = info.uid.toNat) ∧
      ∃ gid, H.gid entry.header = some gid ∧ gid.toNat < 2 ^ 32 ∧ gid.toNat = info.gid.toNat := by
  unfold readMeta at h
  obtain ⟨mode, -, h⟩ := bind_ok h
  obtain ⟨rawUid, huid, h⟩ := bind_ok h
  obtain ⟨uid, hsmallUid, h⟩ := bind_ok h
  obtain ⟨rawGid, hgid, h⟩ := bind_ok h
  obtain ⟨gid, hsmallGid, h⟩ := bind_ok h
  obtain ⟨mtime, -, h⟩ := bind_ok h
  cases h
  obtain ⟨hltUid, heqUid⟩ := smallId_ok hsmallUid
  obtain ⟨hltGid, heqGid⟩ := smallId_ok hsmallGid
  exact ⟨⟨rawUid, orMalformed_ok huid, hltUid, heqUid⟩, rawGid, orMalformed_ok hgid, hltGid, heqGid⟩

/-- An opened member passed every gate but the count. -/
theorem openEntry_gates {limits : SecurityLimits} {entry : TarEntry} {e : ReadEntry}
    (h : openEntry H entry () limits = .ok e) {k : Nat} (hk : k ≤ limits.maxEntries.toNat) :
    Gates H limits k entry ∧ Yields H entry e := by
  obtain ⟨hpath, hkind, ⟨size, hsize, hsizeBytes, -⟩, hmax, hinfo, -⟩ := openEntry_ok H h
  obtain ⟨hraw, hpathGate⟩ := path_gate hpath
  obtain ⟨hkindAs, hkindGate⟩ := kind_gate hkind
  obtain ⟨⟨uid, huid, hltUid, heqUid⟩, gid, hgid, hltGid, heqGid⟩ := ids_gate hinfo
  constructor
  · exact ⟨hk, hpathGate, hkindGate, ⟨uid, huid, hltUid⟩, ⟨gid, hgid, hltGid⟩, size, hsize, hsizeBytes ▸ hmax⟩
  · refine ⟨hraw, hkindAs, ?_, ?_, ?_⟩
    · rw [huid, Option.map_some, heqUid]
    · rw [hgid, Option.map_some, heqGid]
    · rw [hsize, Option.map_some, hsizeBytes]

section Members

variable (H) (room : ReadBuf → Prop) {T : Tar} {S : Type} [AsyncRead IoError S] [Counters S]

/-- The member the parser hands out during a call. -/
def Reader.member (polls : Nat) (r : Reader T S) : Option TarEntry :=
  if r.bodyFailed ∨ r.done ∨ r.entries.isNone then none
  else
    match (T.pull polls r.parser r.source).result with
    | .done (some (.ok entry)) => some entry
    | _ => none

/-- An entry was handed out. -/
def Event.yields : Event → Bool
  | next (.done (.ok (some _))) => true
  | _ => false

theorem Event.yields_next {res : Await (Except Error (Option ReadEntry))} (h : (Event.next res).yields = true) :
    ∃ e, res = .done (.ok (some e)) := by
  unfold Event.yields at h
  split at h
  · rename_i hev
    exact ⟨_, Event.next.inj hev⟩
  · cases h

/-- How many entries a history handed out. -/
def yielded (evs : List Event) : Nat := evs.countP Event.yields

@[simp] theorem yielded_snoc (evs : List Event) (ev : Event) :
    yielded (evs ++ [ev]) = yielded evs + if ev.yields then 1 else 0 := by
  rw [yielded, List.countP_append, List.countP_singleton]
  rfl

variable {H}

/-- A call takes the parser's member through the count and the other checks. -/
theorem Reader.nextEntry_member {r : Reader T S} {polls : Nat} {entry : TarEntry} (h : r.member polls = some entry) :
    r.nextEntry H polls =
      match (r.pulled polls).accept H entry with
      | (.ok accepted, r) => (.done (.ok (some accepted)), r)
      | (.error e, r) => (.done (.error e), r.abort) := by
  unfold Reader.member at h
  split_ifs at h with hdead
  obtain ⟨hf, hrest⟩ := not_or.mp hdead
  obtain ⟨hd, he⟩ := not_or.mp hrest
  cases hentries : r.entries with
  | none =>
    rw [hentries] at he
    exact absurd rfl he
  | some handle =>
    rw [Reader.nextEntry_live (eq_false_of_ne_true hf) (eq_false_of_ne_true hd) hentries]
    split at h
    · rename_i hpull
      cases h
      cases hacc : (r.pulled polls).accept H entry with
      | mk res r' => cases res <;> simp only [hpull, hacc]
    · cases h

/-- A call hands out only what the parser does. -/
theorem Reader.nextEntry_no_member {r : Reader T S} {polls : Nat} (h : r.member polls = none) (e : ReadEntry) :
    (r.nextEntry H polls).1 ≠ .done (.ok (some e)) := by
  cases hf : r.bodyFailed with
  | true => simp [Reader.nextEntry, hf]
  | false =>
    cases hd : r.done with
    | true => simp [Reader.nextEntry, hf, hd]
    | false =>
      cases he : r.entries with
      | none => simp [Reader.nextEntry, hf, hd, he]
      | some handle =>
        rw [Reader.nextEntry_live hf hd he]
        simp only [Reader.member, hf, hd, he, Bool.false_eq_true, Option.isNone_some, or_self, if_false] at h
        cases hp : (T.pull polls r.parser r.source).result with
        | cancelled => simp
        | done i =>
          cases i with
          | none =>
            rcases (r.pulled polls).verifyEnd (T.pull polls r.parser r.source).left with ⟨res, r₂⟩
            cases res with
            | cancelled => simp
            | done res => cases res <;> simp
          | some res =>
            cases res with
            | error e => simp
            | ok entry =>
              rw [hp] at h
              cases h

omit [AsyncRead IoError S] [Counters S] in
theorem Reader.accept_eq (r : Reader T S) (entry : TarEntry) :
    r.accept H entry = (if r.limits.maxEntries.toNat < r.seen + 1 then .error (.limitExceeded "max_entries")
      else openEntry H entry () r.limits, { r with seen := r.seen + 1 }) := by
  unfold Reader.accept
  dsimp only
  split <;> rfl

/-- A call that hands out an entry has counted it. -/
theorem Reader.nextEntry_ok {r : Reader T S} {polls : Nat} {entry : TarEntry} (h : r.member polls = some entry)
    {e : ReadEntry} (he : (r.nextEntry H polls).1 = .done (.ok (some e))) :
    (r.nextEntry H polls).2.seen = r.seen + 1 ∧ r.seen + 1 ≤ r.limits.maxEntries.toNat ∧
      openEntry H entry () r.limits = .ok e := by
  have hnext := r.nextEntry_member (H := H) h
  rw [r.nextEntry_member h, Reader.accept_eq] at he ⊢
  rw [Reader.pulled_limits, Reader.pulled_seen] at he ⊢
  by_cases hmany : r.limits.maxEntries.toNat < r.seen + 1
  · rw [if_pos hmany] at he
    cases he
  · rw [if_neg hmany] at he ⊢
    cases ho : openEntry H entry () r.limits with
    | error err =>
      rw [ho] at he
      cases he
    | ok opened =>
      rw [ho] at he
      cases he
      exact ⟨rfl, Nat.le_of_not_lt hmany, rfl⟩

/-- The limits stay, and a live reader has counted the entries it handed out. -/
structure Tallied (limits : SecurityLimits) (evs : List Event) (σ : Session T S) : Prop where
  limits : σ.reader.limits = limits
  seen : σ.reader.bodyFailed = false → σ.reader.seen = yielded evs

theorem tallied_step {limits : SecurityLimits} {evs : List Event} {σ σ' : Session T S} {ev : Event}
    (h : Tallied limits evs σ) (hs : σ.Step H room ev σ') : Tallied limits (evs ++ [ev]) σ' := by
  cases hs with
  | next r polls =>
    obtain ⟨hlimits, -, hnone⟩ := r.nextEntry_kept (H := H) polls
    refine ⟨hlimits.trans h.limits, fun hf => ?_⟩
    have hseen := h.seen
    rw [yielded_snoc]
    rcases r.nextEntry_cases (H := H) polls with ⟨hbad, heq⟩ | ⟨hgood, -, heq⟩ | ⟨hgood, -, hres⟩
    · simp only [heq] at hf
      rw [hbad] at hf
      cases hf
    · rw [heq]
      exact hseen hgood
    · cases hr : (r.nextEntry H polls).1 with
      | cancelled =>
        rw [hr] at hres
        simp only at hf
        rw [hres.1] at hf
        cases hf
      | done res =>
        cases res with
        | error e =>
          rw [hr] at hres
          simp only at hf
          rw [hres.2.1] at hf
          cases hf
        | ok found =>
          cases found with
          | none => exact (hnone hr).trans (hseen hgood)
          | some e =>
            cases hm : r.member polls with
            | none => exact absurd hr (r.nextEntry_no_member hm e)
            | some entry =>
              rw [(r.nextEntry_ok hm hr).1, hseen hgood]
              rfl
  | read r entry buf hb =>
    obtain ⟨hlimits, hkept, -⟩ := r.pollBody_kept entry buf
    obtain ⟨-, -, -, hflag⟩ := r.pollBody_spec entry buf
    refine ⟨hlimits.trans h.limits, fun hf => ?_⟩
    have hlive : r.bodyFailed = false := by
      simp only at hf
      rw [hf] at hflag
      split at hflag
      · cases hflag
      · exact hflag.symm
    rw [yielded_snoc]
    exact hkept.trans (h.seen hlive)
  | drop r entry =>
    refine ⟨h.limits, fun hf => ?_⟩
    rw [yielded_snoc]
    exact h.seen hf

/-- A poisoned reader hands out nothing more. -/
theorem poisoned_run {start σ : Session T S} {evs : List Event} (hrun : Session.Run H room start evs σ)
    (hf : start.reader.bodyFailed = true) : ∀ ev ∈ evs, ev.yields = false := by
  have hkept := hrun.invariant H room (P := fun evs σ => σ.reader.bodyFailed = true ∧ ∀ ev ∈ evs, ev.yields = false)
    ⟨hf, fun ev hev => absurd hev List.not_mem_nil⟩
    (by
      rintro evs σ σ' ev ⟨hf, hall⟩ hs
      have hmore (hev : ev.yields = false) : ∀ ev' ∈ evs ++ [ev], ev'.yields = false := by
        intro ev' hmem
        rcases List.mem_append.mp hmem with hmem | hmem
        · exact hall ev' hmem
        · rw [List.mem_singleton.mp hmem]
          exact hev
      cases hs with
      | next r polls =>
        simp only at hf
        have hrefused : r.nextEntry H polls = (.done (.error .aborted), r) := by
          simp [Reader.nextEntry, hf]
        rw [hrefused] at hmore ⊢
        exact ⟨hf, hmore rfl⟩
      | read r entry buf hb =>
        obtain ⟨-, -, -, hflag⟩ := r.pollBody_spec entry buf
        refine ⟨?_, hmore rfl⟩
        rw [hflag]
        split
        · rfl
        · exact hf
      | drop r entry => exact ⟨hf, hmore rfl⟩)
  exact hkept.2

/-- In every history, a call that hands out an entry hands out the parser's member, as the
parser reports it, and it passed every gate; a member that does not pass makes the call fail,
and no entry is handed out afterwards. -/
theorem yielded_entries_passed_every_gate {source : S} {limits : SecurityLimits} {r : Reader T S}
    (hstart : Reader.start T source limits = .ok r) {evs : List Event} {σ : Session T S}
    (hrun : Session.Run H room ⟨r, none⟩ evs σ) (polls : Nat) :
    (∀ e, (σ.reader.nextEntry H polls).1 = .done (.ok (some e)) →
      ∃ entry, σ.reader.member polls = some entry ∧ Gates H limits (yielded evs + 1) entry ∧ Yields H entry e) ∧
    ∀ entry, σ.reader.member polls = some entry → ¬ Gates H limits (yielded evs + 1) entry →
      (∃ err, (σ.reader.nextEntry H polls).1 = .done (.error err)) ∧
      ∀ evs' σ', Session.Run H room ⟨(σ.reader.nextEntry H polls).2, none⟩ evs' σ' → ∀ ev ∈ evs', ev.yields = false := by
  have htally : Tallied limits evs σ := by
    refine hrun.invariant H room ?_ (fun _ _ _ _ h hs => tallied_step room h hs)
    obtain ⟨parser, rfl⟩ := Reader.start_ok hstart
    exact ⟨rfl, fun _ => rfl⟩
  have hlive {entry : TarEntry} (hm : σ.reader.member polls = some entry) : σ.reader.bodyFailed = false := by
    unfold Reader.member at hm
    split_ifs at hm with hdead
    exact eq_false_of_ne_true (fun h => hdead (Or.inl h))
  constructor
  · intro e he
    cases hm : σ.reader.member polls with
    | none => exact absurd he (σ.reader.nextEntry_no_member hm e)
    | some entry =>
      obtain ⟨-, hfew, hopen⟩ := σ.reader.nextEntry_ok hm he
      rw [htally.limits] at hfew hopen
      rw [htally.seen (hlive hm)] at hfew
      exact ⟨entry, rfl, openEntry_gates hopen hfew⟩
  · intro entry hm hgates
    have herr : ∃ err, (σ.reader.nextEntry H polls).1 = .done (.error err) ∧
        (σ.reader.nextEntry H polls).2.bodyFailed = true := by
      rw [σ.reader.nextEntry_member hm, Reader.accept_eq, Reader.pulled_limits, Reader.pulled_seen, htally.limits,
        htally.seen (hlive hm)]
      by_cases hmany : limits.maxEntries.toNat < yielded evs + 1
      · rw [if_pos hmany]
        exact ⟨_, rfl, rfl⟩
      · rw [if_neg hmany]
        cases ho : openEntry H entry () limits with
        | ok e => exact absurd (openEntry_gates ho (Nat.le_of_not_lt hmany)).1 hgates
        | error err => exact ⟨err, rfl, rfl⟩
    obtain ⟨err, hres, hflag⟩ := herr
    exact ⟨⟨err, hres⟩, fun evs' σ' hrun' => poisoned_run room hrun' hflag⟩

end Members

section Samples

/-- A directory, and a link to it. -/
def Gnu.linked : List UInt8 :=
  plainRecords ++ (({ member 50 0 with name := [108], link := [100] } : Fields).block.bytes ++ List.replicate 1024 0)

/-- Where links are not allowed the directory, whose path is as long as one may be, is handed
out, and the link is refused. -/
theorem yielded_entries_passed_every_gate_sample :
    let limits := ((SecurityLimits.default.withMaxPathLen 1).withSymlinks false).withHardlinks false
    let r := fresh Gnu.format limits ⟨Gnu.linked, []⟩
    (∃ entry e, r.member 9 = some entry ∧ Gates gnuFields limits 1 entry ∧ Yields gnuFields entry e) ∧
      ∃ evs σ, Session.Run gnuFields (fun _ => True) ⟨r, none⟩ evs σ ∧ yielded evs = 1 ∧
        ∃ err, (σ.reader.nextEntry gnuFields 9).1 = .done (.error err) := by
  intro limits r
  have hstart : Reader.start Gnu.tar r.source limits = .ok r := rfl
  constructor
  · have hyields : (Event.next (r.nextEntry gnuFields 9).1).yields = true := by decide +kernel
    obtain ⟨e, he⟩ := Event.yields_next hyields
    have hhanded := (yielded_entries_passed_every_gate (fun _ => True) hstart .start 9).1 e he
    obtain ⟨entry, hm, hgates, hsame⟩ := hhanded
    exact ⟨entry, e, hm, hgates, hsame⟩
  · have hplays : (Session.replay gnuFields [.next 9, .read 0, .drop] [] ⟨r, none⟩).any (fun p => yielded p.1 == 1 &&
        (p.2.reader.member 9).any fun entry => gnuFields.entryType entry.header == .symlink) = true := by decide +kernel
    obtain ⟨⟨evs, σ⟩, hreplay, hplays⟩ := (Option.any_eq_true _ _).mp hplays
    simp only [Bool.and_eq_true, beq_iff_eq] at hplays
    obtain ⟨hone, hlink⟩ := hplays
    obtain ⟨entry, hm, hkind⟩ := (Option.any_eq_true _ _).mp hlink
    have hrun := Session.replay_run gnuFields .start hreplay
    refine ⟨evs, σ, hrun, hone, ?_⟩
    have hrefused := (yielded_entries_passed_every_gate (fun _ => True) hstart hrun 9).2 entry hm
    refine (hrefused fun hgates => ?_).1
    have hgate := hgates.kind
    unfold KindGate at hgate
    rw [eq_of_beq hkind] at hgate
    exact absurd hgate.1 (by decide)

end Samples

end Etar
