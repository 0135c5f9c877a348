import LogDb.Daemon.Rebuild
import LogDb.Lib.Forall2

/-!
What a run of complete append calls leaves in the log, when the fields of all records fit into their
envelopes: every record can be decoded and has a number of its own.
-/

namespace LogDb.Daemon

open Lib Format List Option

variable {d : DecodedRecord} {α ε : Type} {stream : UInt64} {g i seq : ℕ}

/-- The decoded records of the files, with their ids. -/
def Engine.records {n : ℕ} (db : Engine n) : List (ℕ × DecodedRecord) :=
  (db.scan 0 (2 ^ 64 - 1)).filterMap fun r =>
    (decodeAt n r.1 r.2).toOption.map fun d => (r.1, d)

section

variable {n : ℕ} {db : Engine n}

theorem toOption_eq_some_iff {x : Except ε α} {a : α} : x.toOption = some a ↔ x = .ok a := by
  cases x <;> simp [Except.toOption]

theorem Engine.mem_records :
    (g, d) ∈ db.records ↔ ∃ s i content, db.stored s i = some content ∧ gidOf s i = g ∧
      decodeAt n g content = .ok d := by
  unfold records
  rw [mem_filterMap]
  constructor
  · rintro ⟨r, hr, hd⟩
    obtain ⟨d', hd', heq⟩ := map_eq_some_iff.mp hd
    obtain ⟨rfl, rfl⟩ := Prod.mk.inj heq
    obtain ⟨s, i, hs, hid⟩ := mem_scan_all.mp hr
    exact ⟨s, i, r.2, hs, hid, toOption_eq_some_iff.mp hd'⟩
  · rintro ⟨s, i, content, hs, hid, he⟩
    refine ⟨(g, content), mem_scan_all.mpr ⟨s, i, hs, hid⟩, ?_⟩
    simp [toOption_eq_some_iff.mpr he]

theorem Engine.records_sorted (db : Engine n) : db.records.Pairwise fun a b => a.1 < b.1 := by
  apply List.Pairwise.filterMap _ _ (db.scan_sorted 0 (2 ^ 64 - 1))
  intro r r' hlt x hx x' hx'
  obtain ⟨d, -, rfl⟩ := map_eq_some_iff.mp hx
  obtain ⟨d', -, rfl⟩ := map_eq_some_iff.mp hx'
  exact hlt

theorem Engine.records_nodup (db : Engine n) : db.records.Nodup :=
  db.records_sorted.imp fun hlt heq => absurd (congrArg Prod.fst heq) hlt.ne

theorem eq_filterMap_of_mapM {β : Type} {f : α → Except ε β} {xs : List α} {ys : List β}
    (h : xs.mapM f = .ok ys) : xs.filterMap (fun x => (f x).toOption) = ys := by
  have hf := mapM_eq_ok_iff.mp h
  clear h
  induction hf with
  | nil => rfl
  | cons hx _ ih => simp [toOption_eq_some_iff.mpr hx, ih]

theorem map_filter_records {p : ℕ → Bool} (rs : List (ℕ × Bytes)) :
    ((rs.filterMap fun r => (decodeAt n r.1 r.2).toOption.map fun d => (r.1, d)).filter
      fun x => p x.1).map Prod.snd =
      (rs.filter fun r => p r.1).filterMap fun r => (decodeAt n r.1 r.2).toOption := by
  induction rs with
  | nil => rfl
  | cons r rs ih =>
    cases hd : (decodeAt n r.1 r.2).toOption <;> cases hp : p r.1 <;> simp [hd, hp, ih]

theorem Storage.scan_eq_records {st : Storage n} (he : st.db.Decodes) {toGid : ℕ}
    (ht : toGid ≤ 2 ^ 64 - 1) :
    st.scan 0 toGid = .ok ((st.db.records.filter fun x => x.1 < toGid).map Prod.snd) := by
  have ha : ∀ r ∈ st.db.scan 0 toGid, ∃ d, decodeAt n r.1 r.2 = .ok d := by
    intro r hr
    obtain ⟨-, s, i, hs, -⟩ := Engine.mem_scan.mp hr
    obtain ⟨d, hd⟩ := he s i _ hs
    exact ⟨_, decodeAt_eq_ok.mpr ⟨d, hd, rfl⟩⟩
  obtain ⟨ds, hds⟩ := exists_mapM_eq_ok ha
  have hc : st.scan 0 toGid = .ok ds := hds
  rw [hc, ← eq_filterMap_of_mapM hds, st.db.scan_eq_filter ht]
  unfold Engine.records
  rw [map_filter_records (p := fun g => decide (g < toGid))]

theorem Storage.scan_all_eq_records {st : Storage n} (hd : st.db.Decodes) :
    st.scan 0 (2 ^ 64 - 1) = .ok (st.db.records.map Prod.snd) := by
  rw [scan_eq_records hd le_rfl, filter_eq_self.mpr]
  rintro ⟨g, d⟩ hx
  obtain ⟨s, i, content, hs, rfl, -⟩ := Engine.mem_records.mp hx
  exact decide_eq_true (st.db.gidOf_lt_max (Engine.lt_of_stored hs).le)

end

/-! ## Runs of append calls -/

/-- All records are from appends of fitting records, with numbers of their own that the counters have
passed. -/
structure Storage.Written {n : ℕ} (nsOf : UInt64 → UInt32) (st : Storage n) : Prop where
  first : ∀ s, st.db.first s = 0
  next_pos : ∀ stream, 0 < st.nextSeqs.next stream
  records : ∀ (s : Fin n) (i : ℕ) (content : Bytes), (st.db.contents s)[i]? = some content →
    ∃ e : Envelope, encodeRecord e = .ok content ∧ e.Fits ∧ 0 < e.seq.toNat ∧
      e.seq.toNat < st.nextSeqs.next e.streamId ∧ e.namespaceId = nsOf e.streamId
  distinct : st.db.reopen.Distinct

structure AppendRequest.Fits (req : AppendRequest) : Prop where
  eventType : (strBytes req.eventType).length < 2 ^ 16
  contentType : (strBytes req.contentType).length < 2 ^ 16
  keys : ∀ entry ∈ req.metadata.entries, (strBytes entry.1).length < 2 ^ 8

theorem AppendRequest.Fits.envelope {req : AppendRequest} (h : req.Fits) (seq : ℕ) :
    (req.envelope seq).Fits :=
  ⟨h.eventType, h.contentType, h.keys⟩

namespace Storage.Written

variable {n : ℕ} {nsOf : UInt64 → UInt32} {st : Storage n}

theorem stored_reopen (h : st.Written nsOf) (s : Fin n) (i : ℕ) :
    st.db.reopen.stored s i = (st.db.contents s)[i]? :=
  Engine.stored_reopen (h.first s) i

theorem decodes (h : st.Written nsOf) : st.db.reopen.Decodes := by
  intro s i content hs
  rw [h.stored_reopen] at hs
  obtain ⟨e, hb, hg, -⟩ := h.records s i content hs
  exact ⟨_, decodeRecord_encodeRecord hb hg⟩

theorem mem_records (h : st.Written nsOf) :
    (g, d) ∈ st.db.reopen.records ↔ ∃ (s : Fin n) (i : ℕ) (content : Bytes) (e : Envelope),
      (st.db.contents s)[i]? = some content ∧ encodeRecord e = .ok content ∧ e.Fits ∧
      gidOf s i = g ∧ d = ⟨e, s⟩ := by
  rw [Engine.mem_records]
  constructor
  · rintro ⟨s, i, content, hs, hid, hd⟩
    rw [h.stored_reopen] at hs
    obtain ⟨e, hb, hg, -⟩ := h.records s i content hs
    obtain ⟨d₀, hd₀, rfl⟩ := decodeAt_eq_ok.mp hd
    rw [decodeRecord_encodeRecord hb hg] at hd₀
    cases hd₀
    refine ⟨s, i, content, e, hs, hb, hg, hid, ?_⟩
    rw [← hid, st.db.splitGid_gidOf (List.getElem?_eq_some_iff.mp hs).1.le]
  · rintro ⟨s, i, content, e, hs, hb, hg, rfl, rfl⟩
    refine ⟨s, i, content, by rw [h.stored_reopen, hs], rfl, ?_⟩
    refine decodeAt_eq_ok.mpr ⟨_, decodeRecord_encodeRecord hb hg, ?_⟩
    rw [st.db.splitGid_gidOf (List.getElem?_eq_some_iff.mp hs).1.le]

section

variable (st : Storage n) (stream stream' : UInt64)

theorem next_allocate : (st.allocate stream).2.nextSeqs.next stream' =
      if stream' = stream then st.nextSeqs.next stream + 1 else st.nextSeqs.next stream' := by
  rw [Storage.allocate, NextSeqs.next_insert]

theorem next_le_allocate :
    st.nextSeqs.next stream' ≤ (st.allocate stream).2.nextSeqs.next stream' := by
  rw [next_allocate]
  split_ifs with hs
  · subst hs
    exact Nat.le_succ _
  · exact le_rfl

end

theorem allocate (h : st.Written nsOf) (stream : UInt64) : (st.allocate stream).2.Written nsOf where
  first := h.first
  next_pos stream' := (h.next_pos stream').trans_le (next_le_allocate st stream stream')
  records s i content hct := by
    obtain ⟨e, hb, hg, hp, hlt, hns⟩ := h.records s i content hct
    exact ⟨e, hb, hg, hp, hlt.trans_le (next_le_allocate st stream _), hns⟩
  distinct := h.distinct

variable {req : AppendRequest} {s : Fin n} {content : Bytes} {db : Engine n}

theorem holds_reopen (h : st.Written nsOf) {s : Fin n} : st.db.reopen.Holds s i stream seq ↔
      ∃ content, (st.db.contents s)[i]? = some content ∧ Carries content stream seq := by
  unfold Engine.Holds
  simp only [h.stored_reopen]

theorem lt_next (h : st.Written nsOf) {s : Fin n} {content : Bytes}
    (ht : (st.db.contents s)[i]? = some content)
    (hc : Carries content stream seq) :
    0 < seq ∧ seq < st.nextSeqs.next stream := by
  obtain ⟨e, hb, -, hp, hlt, -⟩ := h.records s i content ht
  have hi := hc.contentIds_eq
  rw [contentIds_of_encodeRecord hb] at hi
  obtain ⟨rfl, rfl⟩ := Prod.mk.inj (some.inj hi)
  exact ⟨hp, hlt⟩

theorem seq_envelope (req : AppendRequest) (hk : st.nextSeqs.next req.streamId < 2 ^ 64) :
    (req.envelope (st.nextSeqs.next req.streamId)).seq.toNat = st.nextSeqs.next req.streamId :=
  UInt64.toNat_ofNat_of_lt' hk

section

variable (h : st.Written nsOf) (hk : st.nextSeqs.next req.streamId < 2 ^ 64) (hg : req.Fits)
  (hns : req.namespaceId = nsOf req.streamId)
  (hb : encodeRecord (req.envelope (st.nextSeqs.next req.streamId)) = .ok content)
  (hj : st.db.append s content = some db)
include h hk hg hns hb hj

theorem push (gid : ℕ) : ({ (st.allocate req.streamId).2 with db }.storeMapping req.streamId
      (st.nextSeqs.next req.streamId) gid).Written nsOf := by
  have hq := seq_envelope req hk
  have hf : ∀ t, db.first t = 0 := by
    intro t
    rw [(Engine.append_eq_some hj).2.1]
    exact h.first t
  have ha : Carries content req.streamId (st.nextSeqs.next req.streamId) := ⟨_, hb, rfl, hq⟩
  refine ⟨hf, (h.allocate req.streamId).next_pos, ?_, ?_⟩
  · intro t i content' ht'
    rcases (Engine.getElem?_append hj).mp ht' with ho | ⟨-, rfl⟩
    · exact (h.allocate req.streamId).records t i content' ho
    · refine ⟨_, hb, hg.envelope _, ?_, ?_, hns⟩
      · rw [hq]
        exact h.next_pos req.streamId
      · rw [hq]
        show _ < (st.allocate req.streamId).2.nextSeqs.next req.streamId
        rw [next_allocate, if_pos rfl]
        exact lt_add_one _
  · rintro t i t' j stream seq ⟨c, hc, hcq⟩ ⟨c', hc', hq'⟩
    have ho := fun {t : Fin n} {i : ℕ} {c : Bytes} (hc : db.reopen.stored t i = some c) =>
      (Engine.getElem?_append hj).mp ((Engine.stored_reopen (hf t) i).symm.trans hc)
    rcases ho hc with hc | ⟨⟨rfl, rfl⟩, rfl⟩
    · rcases ho hc' with hc' | ⟨-, rfl⟩
      · exact h.distinct t i t' j stream seq (h.holds_reopen.mpr ⟨c, hc, hcq⟩)
          (h.holds_reopen.mpr ⟨c', hc', hq'⟩)
      · -- the new number is greater than all others of the stream
        have hlt := (h.lt_next hc hcq).2
        have hi := ha.contentIds_eq.symm.trans hq'.contentIds_eq
        obtain ⟨rfl, rfl⟩ := Prod.mk.inj (some.inj hi)
        exact absurd hlt (lt_irrefl _)
    · rcases ho hc' with hc' | ⟨⟨rfl, rfl⟩, -⟩
      · have hlt := (h.lt_next hc' hq').2
        have hi := ha.contentIds_eq.symm.trans hcq.contentIds_eq
        obtain ⟨rfl, rfl⟩ := Prod.mk.inj (some.inj hi)
        exact absurd hlt (lt_irrefl _)
      · exact ⟨rfl, rfl⟩

theorem records_push : (db.reopen.records.map Prod.snd).Perm
      (⟨req.envelope (st.nextSeqs.next req.streamId), s⟩ :: st.db.reopen.records.map Prod.snd) := by
  have hp := h.push hk hg hns hb hj 0
  have hl := getElem?_eq_none (le_refl (st.db.contents s).length)
  set new : ℕ × DecodedRecord := (gidOf s (st.db.contents s).length,
    ⟨req.envelope (st.nextSeqs.next req.streamId), s⟩)
  have hn : new ∉ st.db.reopen.records := by
    intro hm
    obtain ⟨t, i, c, -, hc, -, -, hid, -⟩ := h.mem_records.mp hm
    obtain ⟨rfl, rfl⟩ := st.db.gidOf_inj (List.getElem?_eq_some_iff.mp hc).1.le le_rfl hid
    rw [hl] at hc
    cases hc
  have hpm : db.reopen.records.Perm (new :: st.db.reopen.records) := by
    rw [perm_ext_iff_of_nodup db.reopen.records_nodup
      (nodup_cons.mpr ⟨hn, st.db.reopen.records_nodup⟩)]
    rintro ⟨g, d⟩
    rw [mem_cons, h.mem_records]
    refine (hp.mem_records (g := g) (d := d)).trans ?_
    constructor
    · rintro ⟨t, i, c, e, hc, he, hs, hid, rfl⟩
      rcases (Engine.getElem?_append hj).mp hc with hc | ⟨⟨rfl, rfl⟩, rfl⟩
      · exact .inr ⟨t, i, c, e, hc, he, hs, hid, rfl⟩
      · have hsm := decodeRecord_encodeRecord he hs
        rw [decodeRecord_encodeRecord hb (hg.envelope _)] at hsm
        cases hsm
        exact .inl (Prod.ext hid.symm rfl)
    · rintro (hn | ⟨t, i, c, e, hc, he, hs, hid, rfl⟩)
      · obtain ⟨rfl, rfl⟩ := Prod.mk.inj hn
        exact ⟨s, _, content, _, (Engine.getElem?_append hj).mpr (.inr ⟨⟨rfl, rfl⟩, rfl⟩),
          hb, hg.envelope _, rfl, rfl⟩
      · exact ⟨t, i, c, e, (Engine.getElem?_append hj).mpr (.inl hc), he, hs, hid, rfl⟩
  exact hpm.map Prod.snd

end

end Storage.Written

end LogDb.Daemon
