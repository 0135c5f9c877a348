import LogDb.Daemon.Tail
import LogDb.Daemon.Written

/-!
The VerifyChain call: the numbers of a stream have no gap in the order of a scan.
-/

namespace LogDb.Daemon

open Lib Format List Engine Writers

variable {p : AppendPhase} {rs : List DecodedRecord} {i n seq : ℕ}

structure VerifyResult where
  ok : Bool
  verifiedFrom : ℕ
  verifiedTo : ℕ
  errorAtSeq : ℕ
  errorMessage : String

/-- The loop over the records of the stream; `i` of them have been looked at. -/
def checkSeqs (stream : UInt64) (first last : ℕ) : ℕ → List DecodedRecord → Option VerifyResult
  | _, [] => none
  | i, r :: rs =>
    let expected := (first + i) % 2 ^ 64
    let got := r.seq.toNat
    if r.streamId ≠ stream then
      some ⟨false, first, last, got, s!"stream_id mismatch at seq={got}"⟩
    else if got ≠ expected then
      some ⟨false, first, last, expected,
        s!"seq gap: expected {expected}, got {got} ({i} records verified before gap)"⟩
    else checkSeqs stream first last (i + 1) rs

def inRange (stream : UInt64) (fromSeq toSeq : ℕ) (r : DecodedRecord) : Bool :=
  let upTo := if toSeq = 0 then 2 ^ 64 - 1 else toSeq
  r.streamId = stream ∧ fromSeq ≤ r.seq.toNat ∧ (upTo = 2 ^ 64 - 1 ∨ r.seq.toNat ≤ upTo)

def verifyRecords (stream : UInt64) : List DecodedRecord → VerifyResult
  | [] => ⟨true, 0, 0, 0, ""⟩
  | r :: rs =>
    let first := r.seq.toNat
    let last := ((r :: rs).getLast (cons_ne_nil r rs)).seq.toNat
    let count := (r :: rs).length
    (checkSeqs stream first last 0 (r :: rs)).getD ⟨true, first, last, 0,
      s!"{count} records verified (storage-level hash chain managed by logdb)"⟩

def Storage.verifyChain (st : Storage n) (stream : UInt64) (fromSeq toSeq : ℕ) :
    Except StorageError VerifyResult := do
  let all ← st.scan 0 (2 ^ 64 - 1)
  return verifyRecords stream (all.filter (inRange stream fromSeq toSeq))

/-! ## The loop -/

section

variable {stream : UInt64}

theorem checkSeqs_eq_none (last : ℕ) {first : ℕ} {r : DecodedRecord}
    (hs : ∀ x ∈ r :: rs, x.streamId = stream) (hf : r.seq.toNat = first + i)
    (hc : (r :: rs).IsChain fun x y => y.seq.toNat = x.seq.toNat + 1) :
    checkSeqs stream first last i (r :: rs) = none := by
  induction rs generalizing i r with
  | nil =>
    have := r.seq.toNat_lt
    simp [checkSeqs, hs r, hf, Nat.mod_eq_of_lt (hf ▸ this)]
  | cons x rs ih =>
    have := r.seq.toNat_lt
    obtain ⟨hn, hc⟩ := isChain_cons_cons.mp hc
    have hr := ih (fun y hy => hs y (mem_cons_of_mem _ hy)) (i := i + 1) (by omega) hc
    rw [checkSeqs]
    simp [hs r, hf, Nat.mod_eq_of_lt (hf ▸ this), hr]

theorem verifyRecords_ok (hs : ∀ x ∈ rs, x.streamId = stream)
    (hc : rs.IsChain fun x y => y.seq.toNat = x.seq.toNat + 1) :
    (verifyRecords stream rs).ok = true := by
  cases rs with
  | nil => rfl
  | cons r rs =>
    have hn := checkSeqs_eq_none ((r :: rs).getLast (cons_ne_nil r rs)).seq.toNat
      hs (add_zero r.seq.toNat).symm hc
    simp only [verifyRecords, hn, Option.getD_none]

/-- Rising numbers without a number left out rise one by one. -/
theorem isChain_of_convex (hs : rs.Pairwise fun x y => x.seq.toNat < y.seq.toNat)
    (hc : ∀ x ∈ rs, ∀ y ∈ rs, ∀ q, x.seq.toNat < q → q < y.seq.toNat → ∃ z ∈ rs, z.seq.toNat = q) :
    rs.IsChain fun x y => y.seq.toNat = x.seq.toNat + 1 := by
  induction rs with
  | nil => exact .nil
  | cons x rs ih =>
    obtain ⟨hx, hs⟩ := pairwise_cons.mp hs
    have ht := ih hs (by grind)
    cases rs with
    | nil => exact .singleton x
    | cons y rs =>
      have hy := (pairwise_cons.mp hs).1
      have hn := hc x (by simp) y (by simp) (x.seq.toNat + 1)
      exact isChain_cons_cons.mpr ⟨by grind, ht⟩

end

/-! ## Runs -/

/-- The stream has one shard, its numbers are logged in order and none of them is lost. What is
logged of other streams can be decoded. -/
def WriteEvent.Orderly (stream : UInt64) (home : Fin n) (w : Writers n) :
    WriteEvent n → Prop
  | .allocate _ req => w.next req.streamId + 1 < 2 ^ 64
  | .fail i => ∀ e, w.calls i = .allocated e → e.streamId ≠ stream
  | .log i s => ∀ e, w.calls i = .allocated e → e.Fits ∧ (e.streamId = stream → s = home ∧
    ∀ j e', w.calls j = .allocated e' → e'.streamId = stream → e.seq.toNat ≤ e'.seq.toNat)
  | _ => True

def OrderlyReachable (stream : UInt64) (home : Fin n) (w w' : Writers n) : Prop :=
  Relation.ReflTransGen (fun a b => ∃ ev, WriteEvent.Orderly stream home a ev ∧ WriteTrans a ev b)
    w w'

/-- A call holds a number of the stream for which it has not yet logged the record. -/
def Writers.Holds (w : Writers n) (stream : UInt64) (i seq : ℕ) : Prop :=
  ∃ e, w.calls i = .allocated e ∧ e.streamId = stream ∧ e.seq.toNat = seq

/-- The numbers of the stream in the log are the first ones, in order; calls hold the others. -/
structure OrderlyInv {n : ℕ} (stream : UInt64) (home : Fin n) (w : Writers n) : Prop where
  writers : WritersInv w
  first : ∀ s, w.storage.db.first s = 0
  decodes : ∀ (s : Fin n) (i : ℕ) (content : Bytes), (w.storage.db.contents s)[i]? = some content →
    ∃ e, encodeRecord e = .ok content ∧ e.Fits
  onHome : ∀ s i seq, w.InLog s i stream seq → s = home
  ordered : ∀ i j seq seq', w.InLog home i stream seq → w.InLog home j stream seq' → i < j →
    seq < seq'
  dense : ∀ seq, 0 < seq → seq < w.next stream →
    (∃ i, w.InLog home i stream seq) ∨ ∃ c, w.Holds stream c seq
  above : ∀ i c seq seq', w.InLog home i stream seq → w.Holds stream c seq' → seq < seq'

namespace OrderlyInv

variable {n : ℕ} {stream : UInt64} {home : Fin n} {w w' : Writers n}

theorem lt_next (h : OrderlyInv stream home w) {s : Fin n}
    (hl : w.InLog s i stream seq) : seq < w.next stream := by
  rcases h.writers.found s i stream seq hl with hg | ⟨c, hc⟩
  · exact h.writers.mapped_lt stream seq _ hg
  · exact h.writers.key_lt c stream seq (by rw [hc]; rfl)

/-- Steps that leave the log, the numbers and the calls of the stream before their records alone. -/
theorem congr (h : OrderlyInv stream home w) (hw : WritersInv w')
    (hc : w'.storage.db.contents = w.storage.db.contents)
    (hf : w'.storage.db.first = w.storage.db.first) (hn : w'.next stream = w.next stream)
    (hh : ∀ c seq, w'.Holds stream c seq ↔ w.Holds stream c seq) : OrderlyInv stream home w' := by
  have hl : ∀ s i seq, w'.InLog s i stream seq ↔ w.InLog s i stream seq := fun s i seq =>
    inLog_congr hc hf
  refine ⟨hw, hf ▸ h.first, hc ▸ h.decodes, ?_, ?_, ?_, ?_⟩
  · simpa only [hl] using h.onHome
  · simpa only [hl] using h.ordered
  · simpa only [hl, hh, hn] using h.dense
  · simpa only [hl, hh] using h.above

theorem holds_setCall {st : Storage n} {c : ℕ} :
    Writers.Holds ⟨st, w.setCall i p⟩ stream c seq ↔ c ≠ i ∧ w.Holds stream c seq ∨
        c = i ∧ ∃ e, p = .allocated e ∧ e.streamId = stream ∧ e.seq.toNat = seq := by
  unfold Writers.Holds setCall
  by_cases hc : c = i
  · simp [hc]
  · simp [hc]

theorem holds_of_setCall {st : Storage n}
    (hp : ∀ e, p ≠ .allocated e) (hi : ∀ seq, ¬ w.Holds stream i seq) (c seq : ℕ) :
    Writers.Holds ⟨st, w.setCall i p⟩ stream c seq ↔ w.Holds stream c seq := by
  rw [holds_setCall]
  constructor
  · rintro (h | ⟨-, e, he, -⟩)
    · exact h.2
    · exact absurd he (hp e)
  · exact fun h => .inl ⟨fun hc => hi seq (hc ▸ h), h⟩

section

variable (h : OrderlyInv stream home w)
include h

theorem allocate {req : AppendRequest}
    (hok : w.next req.streamId + 1 < 2 ^ 64) (hcl : w.calls i = .idle) :
    OrderlyInv stream home ⟨(w.storage.allocate req.streamId).2,
      w.setCall i (.allocated (req.envelope (w.next req.streamId)))⟩ := by
  have hq := seq_envelope_next hok
  have hs : (req.envelope (w.next req.streamId)).streamId = req.streamId := rfl
  have hi : ∀ c seq, w.Holds stream c seq → c ≠ i := by
    rintro c seq ⟨e, hc, -⟩ rfl
    rw [hcl] at hc
    cases hc
  refine ⟨h.writers.allocate hok hcl, h.first, h.decodes, h.onHome, h.ordered, ?_, ?_⟩
  · intro seq hp hlt
    have hd := h.dense seq hp
    rw [WritersInv.next_allocate] at hlt
    show (∃ j, w.InLog home j stream seq) ∨ _
    simp only [holds_setCall]
    grind
  · intro j c seq seq' hl hh
    have hlt := h.lt_next (i := j) hl
    have ha := h.above j c seq seq' hl
    grind [holds_setCall]

theorem log {e : Envelope} {s : Fin n} {content : Bytes} {db : Engine n}
    (hok : WriteEvent.Orderly stream home w (.log i s)) (hcl : w.calls i = .allocated e)
    (hb : encodeRecord e = .ok content) (ha : w.storage.db.append s content = some db) :
    OrderlyInv stream home ⟨{ w.storage with db },
      w.setCall i (.logged e.streamId e.seq.toNat (gidOf s (w.storage.db.contents s).length))⟩ := by
  obtain ⟨hf, hs⟩ := hok e hcl
  have hw := h.writers.log hcl hb ha
  -- the log gains at most the number of this call, at its end
  have hl : ∀ t j seq, Writers.InLog ⟨{ w.storage with db }, w.setCall i (.logged e.streamId
      e.seq.toNat (gidOf s (w.storage.db.contents s).length))⟩ t j stream seq →
      w.InLog t j stream seq ∨ (t = s ∧ j = (w.storage.db.contents s).length) ∧
        w.Holds stream i seq := by
    intro t j seq hl
    refine ((inLog_append ha).mp hl).imp_right fun ⟨hp, hr⟩ => ⟨hp, ?_⟩
    exact ⟨e, hcl, WritersInv.carries_of_allocated hb hr⟩
  have hlt : ∀ {t j seq}, w.InLog t j stream seq → j < (w.storage.db.contents t).length := by
    rintro t j seq ⟨-, content', ht, -⟩
    exact (List.getElem?_eq_some_iff.mp ht).1
  have ho : ∀ {seq}, w.Holds stream i seq → e.streamId = stream ∧ e.seq.toNat = seq := by
    rintro seq ⟨e', he', hrt⟩
    cases hcl.symm.trans he'
    exact hrt
  refine ⟨hw, fun t => (congrFun (append_eq_some ha).2.1 t).trans (h.first t), ?_, ?_, ?_, ?_, ?_⟩
  · intro t j content' ht
    rcases (getElem?_append ha).mp ht with hd | ⟨-, rfl⟩
    · exact h.decodes t j content' hd
    · exact ⟨e, hb, hf⟩
  · intro t j seq hn
    rcases hl t j seq hn with hd | ⟨⟨rfl, -⟩, hh⟩
    · exact h.onHome t j seq hd
    · exact (hs (ho hh).1).1
  · intro j k seq seq' hj hk hjk
    rcases hl _ _ _ hj with hj | ⟨⟨rfl, rfl⟩, -⟩ <;>
      rcases hl _ _ _ hk with hk | ⟨⟨-, rfl⟩, hh⟩
    · exact h.ordered j k seq seq' hj hk hjk
    · exact h.above j i seq seq' hj hh
    · exact absurd (hlt hk) hjk.not_gt
    · exact absurd hjk (lt_irrefl _)
  · intro seq hp hx
    simp only [holds_setCall]
    rcases h.dense seq hp hx with ⟨j, hj⟩ | ⟨c, hc⟩
    · exact .inl ⟨j, (inLog_append ha).mpr (.inl hj)⟩
    · by_cases hci : c = i
      · subst hci
        obtain ⟨he, rfl⟩ := ho hc
        obtain rfl := (hs he).1
        exact .inl ⟨_, (inLog_append ha).mpr (.inr ⟨⟨rfl, rfl⟩, e, hb, he, rfl⟩)⟩
      · exact .inr ⟨c, .inl ⟨hci, hc⟩⟩
  · intro j c seq seq' hj hc
    obtain ⟨hci, hc⟩ : c ≠ i ∧ w.Holds stream c seq' := by simpa using holds_setCall.mp hc
    rcases hl _ _ _ hj with hj | ⟨-, hi⟩
    · exact h.above j c seq seq' hj hc
    · obtain ⟨he, rfl⟩ := ho hi
      obtain ⟨e', hc', he', rfl⟩ := hc
      refine lt_of_le_of_ne ((hs he).2 c e' hc' he') fun heq => hci ?_
      exact h.writers.key_unique c i (stream, e.seq.toNat) (by rw [hc', heq, ← he']; rfl)
        (by rw [hcl, ← he]; rfl)

theorem step {ev : WriteEvent n}
    (hok : ev.Orderly stream home w) (ht : WriteTrans w ev w') : OrderlyInv stream home w' := by
  cases ht with
  | allocate hc => exact h.allocate hok hc
  | @fail i e hc =>
    refine h.congr (h.writers.fail hc) rfl rfl rfl (holds_of_setCall nofun ?_)
    rintro seq ⟨e, he, hs, -⟩
    exact hok e he hs
  | log hc hn ha => exact h.log hok hc hn ha
  | @map i _ _ _ hc =>
    refine h.congr (h.writers.map hc) rfl rfl rfl (holds_of_setCall nofun ?_)
    rintro seq ⟨e, he, -⟩
    cases hc.symm.trans he
  | progress hd =>
    exact h.congr (h.writers.progress hd) hd.contents hd.first rfl fun _ _ => .rfl

theorem engineDecodes : w.storage.db.Decodes := by
  intro s i content hs
  obtain ⟨e, he, hf⟩ := h.decodes s i content (stored_eq_some_iff.mp hs).2
  exact ⟨_, decodeRecord_encodeRecord he hf⟩

/-- The records of the stream in the files, by their place on the home shard. -/
theorem exists_record_iff {g : ℕ} :
    (∃ d, (g, d) ∈ w.storage.db.records ∧ d.streamId = stream ∧ d.seq.toNat = seq) ↔
      ∃ i < w.storage.db.written home, gidOf home i = g ∧ w.InLog home i stream seq := by
  constructor
  · rintro ⟨d, hm, hs, hq⟩
    obtain ⟨s, i, content, ho, rfl, hd⟩ := mem_records.mp hm
    obtain ⟨⟨hf, hi⟩, ht⟩ := stored_eq_some_iff.mp ho
    obtain ⟨e, he, hft⟩ := h.decodes s i content ht
    obtain ⟨d₀, hd₀, rfl⟩ := decodeAt_eq_ok.mp hd
    cases (decodeRecord_encodeRecord he hft).symm.trans hd₀
    have hl : w.InLog s i stream seq := ⟨hf, content, ht, e, he, hs, hq⟩
    obtain rfl := h.onHome s i seq hl
    exact ⟨i, hi, rfl, hl⟩
  · rintro ⟨i, hi, rfl, hf, content, ht, hc⟩
    obtain ⟨e, he, hft⟩ := h.decodes home i content ht
    exact ⟨_, mem_records.mpr ⟨home, i, content, stored_eq_some_iff.mpr ⟨⟨hf, hi⟩, ht⟩, rfl,
      decodeAt_eq_ok.mpr ⟨_, decodeRecord_encodeRecord he hft, rfl⟩⟩,
      WritersInv.carries_of_allocated he hc⟩

end

theorem start {hs : n ≤ 256} : OrderlyInv stream home (Writers.start (Engine.empty hs)) := by
  obtain ⟨hr, hex⟩ := Storage.exact_new_empty hs
  have hw := WritersInv.start hr (fun _ => rfl) hex
  rw [Writers.start, Storage.new_empty] at hw ⊢
  have hn : ∀ s i seq, ¬ Writers.InLog ⟨⟨empty hs, ∅, ∅⟩, fun _ => .idle⟩ s i stream
      seq := by
    rintro s i seq ⟨-, content, hc, -⟩
    cases hc
  refine ⟨hw, fun _ => rfl, nofun, fun s i seq hl => absurd hl (hn s i seq),
    fun i _ seq _ hl => absurd hl (hn home i seq), fun seq hp hlt => ?_,
    fun i _ seq _ hl => absurd hl (hn home i seq)⟩
  exact absurd hp (Nat.lt_one_iff.mp hlt).not_gt

end OrderlyInv

section

variable {n : ℕ} {stream : UInt64} {home : Fin n}

/-- When the numbers of a stream are logged in order on one shard and none is lost, no range of it
has a gap. -/
theorem verifyChain_ok_of_orderly {hshards : n ≤ 256} {w : Writers n}
    (hrun : OrderlyReachable stream home (Writers.start (Engine.empty hshards)) w)
    (fromSeq toSeq : ℕ) :
    ∃ r, w.storage.verifyChain stream fromSeq toSeq = .ok r ∧ r.ok = true := by
  have h : OrderlyInv stream home w :=
    invariant_of_steps hrun .start fun _ _ h ⟨_, hok, htr⟩ => h.step hok htr
  have hsc : w.storage.verifyChain stream fromSeq toSeq = .ok (verifyRecords stream
      ((w.storage.db.records.map Prod.snd).filter (inRange stream fromSeq toSeq))) := by
    rw [Storage.verifyChain, Storage.scan_all_eq_records h.engineDecodes]
    rfl
  -- what is to be verified stands in the log
  have hm : ∀ {x}, x ∈ w.storage.db.records → inRange stream fromSeq toSeq x.2 →
      ∃ i < w.storage.db.written home, gidOf home i = x.1 ∧ w.InLog home i stream x.2.seq.toNat :=
    fun hx hrg => h.exists_record_iff.mp ⟨_, hx, (of_decide_eq_true hrg).1, rfl⟩
  refine ⟨_, hsc, verifyRecords_ok (fun d hd => ?_) (isChain_of_convex ?_ ?_)⟩
  · exact (of_decide_eq_true (mem_filter.mp hd).2).1
  · rw [filter_map, pairwise_map]
    refine (w.storage.db.records_sorted.filter _).imp_of_mem fun {x y} hx hy hlt => ?_
    obtain ⟨i, hi, hgx, hxg⟩ := hm (mem_filter.mp hx).1 (mem_filter.mp hx).2
    obtain ⟨j, hj, hgy, hg⟩ := hm (mem_filter.mp hy).1 (mem_filter.mp hy).2
    have hle := w.storage.db.written_le home
    rw [← hgx, ← hgy, w.storage.db.gidOf_eq (by omega), w.storage.db.gidOf_eq (by omega)] at hlt
    exact h.ordered i j _ _ hxg hg (Nat.lt_of_mul_lt_mul_right (Nat.lt_of_add_lt_add_right hlt))
  · rw [filter_map]
    simp only [forall_mem_map, mem_filter, Function.comp_apply]
    rintro x ⟨-, hxr⟩ y ⟨hy, hr⟩ q hxq hqy
    obtain ⟨j, hj, -, hg⟩ := hm hy hr
    -- the number is in the log, in front of the greater one
    have hq : ∃ i, w.InLog home i stream q := by
      refine (h.dense q (by omega) (hqy.trans (h.lt_next hg))).resolve_right ?_
      rintro ⟨c, hc⟩
      exact absurd (h.above j c _ q hg hc) hqy.not_gt
    obtain ⟨i, hi⟩ := hq
    have hij : i < j := by
      rcases lt_trichotomy i j with hij | rfl | hji
      · exact hij
      · obtain ⟨-, content, ht, ha⟩ := hi
        obtain ⟨-, content', ht', hc'⟩ := hg
        cases ht.symm.trans ht'
        have hids := ha.contentIds_eq.symm.trans hc'.contentIds_eq
        exact absurd (Prod.mk.inj (Option.some.inj hids)).2 hqy.ne
      · exact absurd (h.ordered j i _ _ hg hi hji) hqy.not_gt
    obtain ⟨d, hd, hs, he⟩ := h.exists_record_iff.mpr ⟨i, hij.trans hj, rfl, hi⟩
    have hxr := of_decide_eq_true hxr
    have hr := of_decide_eq_true hr
    have hrg : inRange stream fromSeq toSeq d := decide_eq_true ⟨hs, by omega, by omega⟩
    exact ⟨d, mem_map.mpr ⟨_, mem_filter.mpr ⟨hd, hrg⟩, rfl⟩, he⟩

end

/-- Two calls that overlap and write in the order of their numbers. -/
theorem verifyChain_ok_of_orderly_two_appends :
    ∃ w : Writers 1, w.InLog 0 0 1 1 ∧ w.InLog 0 1 1 2 ∧
      ∃ r, w.storage.verifyChain 1 0 0 = .ok r ∧ r.ok = true := by
  have hr : OrderlyReachable 1 0 (start (empty (n := 1) (by decide))) _ := .tail
    (.tail .refl ⟨.allocate 0 bareRequest, (show 1 + 1 < 2 ^ 64 by decide), .allocate rfl⟩)
    ⟨.allocate 1 bareRequest, (show 2 + 1 < 2 ^ 64 by decide), .allocate rfl⟩
  have hl := (hr.tail ⟨.log 0 0, ?_, .log rfl rfl
      (show append _ 0 (bareContent 1 1) = some firstOfTwo.db from rfl)⟩).tail ⟨.log 1 0, ?_,
        .log rfl rfl (show append _ 0 (bareContent 1 2) = some bothOnOne.db from rfl)⟩
  · have hw := hl.tail ⟨.progress (bothOnOne.db.synced (fun _ => 2) (by decide) (by decide)),
      trivial, .progress (.synced fun _ => Nat.zero_le _)⟩
    exact ⟨_, ⟨Nat.zero_le _, _, rfl, _, encodeRecord_bareEnvelope 1 1, rfl, rfl⟩,
      ⟨Nat.zero_le _, _, rfl, _, encodeRecord_bareEnvelope 1 2, rfl, rfl⟩,
      verifyChain_ok_of_orderly hw 0 0⟩
  all_goals
    intro e he
    cases he
    refine ⟨⟨by decide, by decide, nofun⟩, fun _ => ⟨rfl, fun j e' he' _ => ?_⟩⟩
    rcases j with _ | _ | j <;> cases he' <;> decide

/-- A call takes the second number and fails; then the third one is written. -/
def numberLost : Storage 1 :=
  ((firstOfTwo.allocate 1).2.append bareRequest (.ok 0)).2

def lostSynced : Engine 1 :=
  numberLost.db.synced (fun _ => 2) (by decide) (by decide)

/-- Honest calls, one of them refused, leave a stream that is reported as broken. -/
theorem verifyChain_reports_failed_append :
    ∃ w : Writers 1, WriteReachable (Writers.start (Engine.empty (by decide))) w ∧
      w.storage.verifyChain 1 0 0 = .ok ⟨false, 1, 3, 2,
        "seq gap: expected 2, got 3 (1 records verified before gap)"⟩ := by
  have ha₁ : (Storage.new (empty (by decide))).append bareRequest (.ok 0) =
    (.ok ⟨0, 1⟩, firstOfTwo) := rfl
  have ha₂ : (firstOfTwo.allocate 1).2.append bareRequest (.ok 0) = (.ok ⟨1, 3⟩, numberLost) := rfl
  have hf : WriteReachable (start (empty (by decide)))
      ⟨firstOfTwo, fun _ => .idle⟩ :=
    .append ha₁ (i := 0) rfl (show 1 + 1 < 2 ^ 64 by decide)
  have hl := hf.tail
      ⟨.allocate 0 bareRequest, (show 2 + 1 < 2 ^ 64 by decide), .allocate rfl⟩
    |>.tail ⟨.fail 0, trivial, .fail rfl⟩
  have hd := hl.trans (WriteReachable.append ha₂ (i := 1) rfl (show 3 + 1 < 2 ^ 64 by decide))
  exact ⟨_, hd.tail ⟨.progress lostSynced, trivial,
    .progress (.synced fun _ => Nat.zero_le _)⟩, rfl⟩

end LogDb.Daemon
