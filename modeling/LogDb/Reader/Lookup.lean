import LogDb.Lib.Forall2
import LogDb.Reader.Point

/-!
On a segment file that holds stored records, and nothing else, a point read finds the record that
it looks for. Whatever the file holds, it returns no other one.
-/

namespace LogDb.Reader

open Lib Format Storage List Option ReadView

variable {targets : List (ℕ × UInt64)} {r : Record} {ρ : Type*} {offset : ℕ}

/-- Search ascending records for an id. -/
def lookup (recordId : UInt64) : List Record → Option Record
  | [] => none
  | r :: rs =>
    if r.id.sequence = recordId then some r
    else if recordId < r.id.sequence then none
    else lookup recordId rs

variable {records : List Record} {recordId : UInt64}

theorem lookup_of_mem (hs : records.Pairwise fun a b => recordKey a < recordKey b)
    (hr : r ∈ records) : lookup r.id.sequence records = some r := by
  induction records with
  | nil => exact absurd hr not_mem_nil
  | cons x xs ih =>
    obtain ⟨hx, hxs⟩ := pairwise_cons.mp hs
    unfold lookup
    rcases mem_cons.mp hr with rfl | hm
    · exact if_pos rfl
    · have hlt : x.id.sequence < r.id.sequence := UInt64.lt_iff_toNat_lt.mpr (hx r hm)
      rw [if_neg (UInt64.ne_of_lt hlt), if_neg (UInt64.not_lt.mpr (UInt64.le_of_lt hlt))]
      exact ih hxs hm

theorem lookup_eq_none (h : ∀ r ∈ records, r.id.sequence ≠ recordId) :
    lookup recordId records = none := by
  induction records with
  | nil => rfl
  | cons x xs ih =>
    unfold lookup
    rw [if_neg (h x mem_cons_self)]
    split_ifs
    · rfl
    · exact ih fun r hr => h r (mem_cons_of_mem x hr)

theorem lookup_eq_some (h : lookup recordId records = some r) :
    r.id.sequence = recordId ∧ r ∈ records := by
  induction records with
  | nil => cases h
  | cons x xs ih =>
    unfold lookup at h
    split_ifs at h with hid hlt
    · cases h
      exact ⟨hid, mem_cons_self⟩
    · obtain ⟨hid, hm⟩ := ih h
      exact ⟨hid, mem_cons_of_mem x hm⟩

section Records

variable {C : Crates} {recordId : UInt64} {file data : Bytes}

def lookupStep (recordId : UInt64) (done : Option Record → ρ) (_ : Unit)
    (v : ReadView) : Unit ⊕ ρ :=
  if v.toRecord.id.sequence = recordId then .inr (done (some v.toRecord))
  else if recordId < v.toRecord.id.sequence then .inr (done none)
  else .inl ()

theorem foldUntil_lookupStep (done : Option Record → ρ) (views : List ReadView) :
    foldUntil (lookupStep recordId done) (fun _ => done none) views () =
      done (lookup recordId (views.map toRecord)) := by
  induction views with
  | nil => rfl
  | cons v vs ih =>
    rw [map_cons, lookup, foldUntil, lookupStep]
    split_ifs
    · rfl
    · rfl
    · exact ih

section

variable (views : List ReadView) (hi : ∀ v ∈ views, v.Fits) (pre : Bytes)
include hi

theorem rawPointLoop_run (hfl : file = pre ++ batchBytes C views) :
    (rawPointLoop C recordId file).run pre.length = lookup recordId (views.map toRecord) := by
  refine ((rawPointLoop C recordId file).run_items (fun n _ => n) ?_ ?_ views hi pre hfl
    ()).trans (foldUntil_lookupStep id views)
  · intro pre v rest _ hv hfl
    have hm : minRecordSize = 60 := rfl
    obtain ⟨ht, hf, hs, hl⟩ := storedRecord_at C hv hfl
    change rawPointStep C recordId file pre.length = _
    unfold rawPointStep lookupStep
    simp only [ht, hf, deserializeRecord_storedRecord C hv, length_append, storedRecord_length]
    rw [if_neg (by omega), if_neg (by omega), if_neg (by omega), if_neg (by omega)]
    split_ifs <;> rfl
  · intro _
    exact if_pos (le_rfl)

theorem framePointLoop_run (hd : data = pre ++ batchBytes C views) :
    (framePointLoop C recordId data data.length).run pre.length =
      .ok (lookup recordId (views.map toRecord)) := by
  have hm : minRecordSize = 60 := rfl
  refine ((framePointLoop C recordId data data.length).run_items (fun n _ => n) ?_ ?_ views hi
    pre hd ()).trans (foldUntil_lookupStep Except.ok views)
  · intro pre v rest _ hv hd
    obtain ⟨ht, hf, hs, hl⟩ := storedRecord_at C hv hd
    change framePointStep C recordId data data.length pre.length = _
    unfold framePointStep lookupStep
    simp only [ht, hf, deserializeRecord_storedRecord C hv, length_append, storedRecord_length]
    rw [if_neg (by omega), if_neg (by omega), if_neg (by omega)]
    split_ifs <;> rfl
  · intro _
    exact if_pos (by omega)

end

end Records

section Frames

variable {C : Crates} {recordId : UInt64}
  {isCompressed isEncrypted : Bool} {key : Option KeyRing} {file : Bytes}

def framesLookupStep (recordId : UInt64) (_ : Unit) (f : StoredFrame) :
    Unit ⊕ Except ReadError (Option Record) :=
  match lookup recordId (f.views.map toRecord) with
  | none => .inl ()
  | some r => .inr (.ok (some r))

theorem foldUntil_framesLookupStep (frames : List StoredFrame) :
    foldUntil (framesLookupStep recordId) (fun _ => .ok none) frames () =
      .ok (frames.findSome? fun f => lookup recordId (f.views.map toRecord)) := by
  induction frames with
  | nil => rfl
  | cons f fs ih =>
    rw [foldUntil, framesLookupStep, findSome?_cons]
    cases lookup recordId (f.views.map toRecord) with
    | none => exact ih
    | some r => rfl

theorem framesPointLoop_run (frames : List StoredFrame)
    (hv : ∀ f ∈ frames, f.Valid C isCompressed isEncrypted key) (pre : Bytes)
    (hfl : file = pre ++ (frames.map (StoredFrame.bytes C)).flatten) :
    (framesPointLoop C recordId isCompressed isEncrypted key file).run pre.length =
      .ok (frames.findSome? fun f => lookup recordId (f.views.map toRecord)) := by
  refine ((framesPointLoop C recordId isCompressed isEncrypted key file).run_items (fun n _ => n)
    ?_ ?_ frames hv pre hfl ()).trans (foldUntil_framesLookupStep frames)
  · intro pre f rest _ hf hfl
    obtain ⟨hh, hd, hl⟩ := frameBytes_fields hf.payload_lt hfl
    rw [Nat.mod_eq_of_lt hf.raw_lt] at hh
    have hp : f.payload.length ≠ 0 := fun hz => hf.payload_ne (length_eq_zero_iff.mp hz)
    have ha : (f.raw C).length ≠ 0 :=
      fun hz => batchBytes_ne_nil C hf.views_ne (length_eq_zero_iff.mp hz)
    have hr : (framePointLoop C recordId (f.raw C) (f.raw C).length).run 0 =
        .ok (lookup recordId (f.views.map toRecord)) :=
      framePointLoop_run f.views hf.fits [] (nil_append _).symm
    have hb : (f.bytes C).length = frameHeaderSize + f.payload.length := frameBytes_length _ _
    have hs : 0 < frameHeaderSize := by decide
    change framesPointStep C recordId isCompressed isEncrypted key file pre.length = _
    unfold framesPointStep framesLookupStep
    simp only [hh, hd, hf.decodes, hr, length_append, hb]
    rw [if_neg (by omega), if_neg (by omega), if_neg (by omega)]
    cases lookup recordId (f.views.map toRecord) <;> rfl
  · intro _
    exact if_pos (le_rfl)

theorem findSome_lookup {frames : List StoredFrame} {v : ReadView}
    (hs : ((frames.flatMap StoredFrame.views).map toRecord).Pairwise
      fun a b => recordKey a < recordKey b) (hv : v ∈ frames.flatMap StoredFrame.views) :
    (frames.findSome? fun f => lookup v.recordId (f.views.map toRecord)) = some v.toRecord := by
  induction frames with
  | nil => exact absurd hv not_mem_nil
  | cons f fs ih =>
    rw [flatMap_cons, map_append] at hs
    obtain ⟨hf, hfs, hc⟩ := pairwise_append.mp hs
    rw [findSome?_cons]
    rw [flatMap_cons] at hv
    rcases mem_append.mp hv with hh | hl
    · rw [show v.recordId = v.toRecord.id.sequence from rfl, lookup_of_mem hf (mem_map_of_mem hh)]
    · have hn : lookup v.recordId (f.views.map toRecord) = none := by
        apply lookup_eq_none
        intro r hr heq
        have hlt := hc r hr v.toRecord (mem_map_of_mem hl)
        unfold recordKey at hlt
        rw [heq] at hlt
        exact absurd hlt (lt_irrefl _)
      rw [hn]
      exact ih hfs hl

end Frames

section Requested

variable {C : Crates} {recordId : UInt64} {r : Record} {file : Bytes}

theorem rawPointLoop_id (h : (rawPointLoop C recordId file).run offset = some r) :
    r.id.sequence = recordId := by
  have hp : ∀ x ∈ (rawPointLoop C recordId file).run offset, x.id.sequence = recordId := by
    apply (rawPointLoop C recordId file).run_invariant (fun _ => True)
      (fun res => ∀ x ∈ res, x.id.sequence = recordId) (fun _ _ _ _ => trivial) _ trivial
    intro offset res _ hs
    change rawPointStep C recordId file offset = .inr res at hs
    unfold rawPointStep at hs
    simp only at hs
    split_ifs at hs
    · cases hs
      simp
    · cases hs
      simp
    · cases hs
      simp
    · split at hs
      · split_ifs at hs with heq
        · cases hs
          rintro x ⟨⟩
          exact heq
        · cases hs
          simp
      · cases hs
  exact hp r h

theorem framePointLoop_id {data : Bytes} {frameLen doff : ℕ}
    (h : (framePointLoop C recordId data frameLen).run doff = .ok (some r)) :
    r.id.sequence = recordId := by
  have hp : ∀ x, (framePointLoop C recordId data frameLen).run doff = .ok (some x) →
      x.id.sequence = recordId := by
    apply (framePointLoop C recordId data frameLen).run_invariant (fun _ => True)
      (fun res => ∀ x, res = .ok (some x) → x.id.sequence = recordId) (fun _ _ _ _ => trivial) _
      trivial
    intro doff res _ hsp x hr
    subst hr
    change framePointStep C recordId data frameLen doff = .inr (.ok (some x)) at hsp
    unfold framePointStep at hsp
    simp only at hsp
    split_ifs at hsp with hm hs hb
    · cases hsp
    · cases hsp
    · split at hsp
      · split_ifs at hsp with heq
        · cases hsp
          exact heq
        · cases hsp
      · cases hsp
    · cases hsp
  exact hp r h

theorem readFromOpenFile_id {a : PointArgs} (h : readFromOpenFile C a file = .ok (some r)) :
    r.id.sequence = a.recordId := by
  unfold readFromOpenFile at h
  split_ifs at h with hf
  · set loop := framesPointLoop C a.recordId a.isCompressed a.isEncrypted a.key file
    refine loop.run_invariant (fun _ => True)
      (fun res => ∀ x, res = .ok (some x) → x.id.sequence = a.recordId) (fun _ _ _ _ => trivial) ?_
      trivial r h
    intro offset res _ hp x hr
    subst hr
    change framesPointStep C a.recordId a.isCompressed a.isEncrypted a.key file offset =
      .inr (.ok (some x)) at hp
    unfold framesPointStep at hp
    simp only at hp
    split_ifs at hp with he hs hb
    · cases hp
    · cases hp
    · cases hp
    · split at hp
      · cases hp
      · split at hp
        · cases hp
        · exact framePointLoop_id (Sum.inr.inj hp)
  · exact rawPointLoop_id (Except.ok.inj h)

theorem read_id {d : Disk} {keys : Option KeyRing} (h : read C d keys recordId = .ok (some r)) :
    r.id.sequence = recordId := by
  unfold read at h
  split at h
  · cases h
  · split at h
    · cases h
    · exact readFromOpenFile_id h

theorem readManyRaw_mem {start : ℕ} {x : ℕ × Record} (h : x ∈ readManyRaw C file start targets) :
    (x.1, x.2.id.sequence) ∈ targets := by
  have hp : ∀ y ∈ readManyRaw C file start targets, (y.1, y.2.id.sequence) ∈ targets := by
    apply (rawManyLoop C file).run_invariant
      (fun s => (∀ t ∈ s.targets, t ∈ targets) ∧ ∀ y ∈ s.out, (y.1, y.2.id.sequence) ∈ targets)
      (fun out => ∀ y ∈ out, (y.1, y.2.id.sequence) ∈ targets)
    · rintro s s' ⟨hl, ho⟩ hs
      change rawManyStep C file s = .inl s' at hs
      unfold rawManyStep at hs
      simp only at hs
      split_ifs at hs
      · cases hs
        exact ⟨hl, ho⟩
      · split at hs
        · cases hs
          exact ⟨hl, ho⟩
        · rename_i record _ _
          have hd : ∀ t ∈ s.targets.dropWhile fun t => t.2 < record.id.sequence,
              t ∈ targets := fun t ht => hl t ((dropWhile_sublist _).subset ht)
          split at hs
          · cases hs
            exact ⟨fun t ht => absurd ht not_mem_nil, ho⟩
          · rename_i t ts hcons
            rw [hcons] at hd
            split_ifs at hs with heq
            · cases hs
              refine ⟨fun u hu => hd u (mem_cons_of_mem t hu), fun y hy => ?_⟩
              rcases mem_append.mp hy with ha | hn
              · exact ho y ha
              · rw [mem_singleton.mp hn, ← heq]
                exact hd t mem_cons_self
            · cases hs
              exact ⟨hd, ho⟩
    · rintro s out ⟨-, ho⟩ hs
      change rawManyStep C file s = .inr out at hs
      unfold rawManyStep at hs
      simp only at hs
      split_ifs at hs
      · cases hs
        exact ho
      · cases hs
        exact ho
      · cases hs
        exact ho
      · split at hs
        · cases hs
        · split at hs
          · cases hs
          · split_ifs at hs
    · exact ⟨fun t ht => ht, fun y hy => absurd hy not_mem_nil⟩
  exact hp x h

end Requested

section Batch

variable {C : Crates} {d : Disk} {keys : Option KeyRing} {ids : List UInt64}

/-- Every record stands in the slot of its id. -/
def Requested (ids : List UInt64) (results : List (Option Record)) : Prop :=
  ∀ (j : ℕ) (r : Record), results[j]? = some (some r) → ids[j]? = some r.id.sequence

variable {results : List (Option Record)} {found : List (ℕ × Option Record)}

theorem readCluster_requested {e : ManifestEntry} (hs : ∀ t ∈ targets, ids[t.1]? = some t.2)
    (h : readCluster C d keys e targets = .ok found) {slot : ℕ} (hm : (slot, some r) ∈ found) :
    ids[slot]? = some r.id.sequence := by
  unfold readCluster at h
  split at h
  · cases h
    exact absurd hm not_mem_nil
  · split_ifs at h with hfr
    · obtain ⟨t, ht, hr⟩ := exists_of_forall₂ (mapM_eq_ok_iff.mp h) hm
      cases hf : readFromOpenFile C
          ⟨e.isCompressed, e.isEncrypted, keys, segmentHeaderSize, t.2⟩ _ with
      | error err =>
        rw [hf] at hr
        cases hr
      | ok res =>
        rw [hf] at hr
        cases hr
        rw [readFromOpenFile_id hf]
        exact hs t ht
    · cases h
      obtain ⟨x, hx, heq⟩ := mem_map.mp hm
      cases heq
      exact hs _ (readManyRaw_mem hx)

/-- What holds of every record and its slot before and of what is stored holds after. -/
theorem storeResults_forall {P : ℕ → Record → Prop} (h : ∀ j r, results[j]? = some (some r) → P j r)
    (hf : ∀ slot r, (slot, some r) ∈ found → P slot r) (j : ℕ) (r : Record)
    (hj : (storeResults results found)[j]? = some (some r)) : P j r := by
  unfold storeResults at hj
  induction found generalizing results with
  | nil => exact h j r hj
  | cons x xs ih =>
    rw [foldl_cons] at hj
    refine ih ?_ (fun slot r hm => hf slot r (mem_cons_of_mem x hm)) hj
    intro j r hj
    rw [getElem?_set] at hj
    split_ifs at hj with hs hlt
    · rw [← hs]
      have hx : x.2 = some r := some.inj hj
      exact hf x.1 r (hx ▸ mem_cons_self)
    · exact h j r hj

theorem readClusters_requested {clusters : List (List (ℕ × ManifestEntry))}
    {results' : List (Option Record)} (h : Requested ids results)
    (hr : readClusters C d keys ids clusters results = .ok results') : Requested ids results' := by
  induction clusters generalizing results with
  | nil =>
    cases hr
    exact h
  | cons cluster clusters ih =>
    cases cluster with
    | nil => exact ih h hr
    | cons c cs =>
      unfold readClusters at hr
      split at hr
      · cases hr
      · rename_i found hclu
        refine ih (storeResults_forall h fun slot r hm =>
          readCluster_requested (fun t ht => ?_) hclu hm) hr
        obtain ⟨c, -, hc⟩ := mem_filterMap.mp (mem_mergeSort.mp ht)
        obtain ⟨id, hid, rfl⟩ := map_eq_some_iff.mp hc
        exact hid

theorem readBatch_requested (h : readBatch C d keys ids = .ok results) : Requested ids results := by
  refine readClusters_requested ?_ h
  intro j r hj
  obtain ⟨hlt, hn⟩ := List.getElem?_eq_some_iff.mp hj
  rw [getElem_replicate] at hn
  cases hn

end Batch

end LogDb.Reader
