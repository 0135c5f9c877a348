import LogDb.Daemon.CatalogEntries

/-!
Ids of the catalog over restarts: what a call returned is in the snapshot file once all calls have
returned, if the saves do not fail and do not overlap.
-/

namespace LogDb.Daemon

open Lib List Function Option CatalogDaemon

/-! ### The condition -/

/-- The snapshot that a call has serialised and not renamed yet. -/
def Resolver.buffer : Resolver → Option CatalogSnapshot
  | serialized _ _ _ _ buf => some buf
  | opened _ _ _ _ buf _ => some buf
  | written _ _ _ _ buf => some buf
  | _ => none

/-- Saves do not fail and do not overlap, the daemon restarts only at rest, and the ids do not
run out. -/
def CatalogEvent.Careful (w : CatalogDaemon) : CatalogEvent → Prop
  | .resolveNamespace _ _ _ => w.catalog.nextNsId + 1 < 2 ^ 32
  | .resolveStream _ => w.catalog.nextStreamId + 1 < 2 ^ 64
  | .serialize _ => ∀ i, (w.resolver i).buffer = none
  | .fail _ => False
  | .restart => ∀ i, w.resolver i = .idle
  | _ => True

/-! ### The invariant -/

/-- The call has created an entry and will serialise the catalog. -/
def Resolver.Pending : Resolver → Prop
  | named _ _ _ created => created = true
  | unsaved _ _ _ _ => True
  | _ => False

/-- The ids that a call holds are those of the catalog. -/
def Resolver.Known (cat : Catalog) : Resolver → Prop
  | idle => True
  | named ns _ nsId _ => cat.Has (.ns ns nsId)
  | unsaved ns stream nsId streamId =>
    cat.Has (.ns ns nsId) ∧ cat.Has (.stream nsId stream streamId)
  | serialized ns stream nsId streamId _ =>
    cat.Has (.ns ns nsId) ∧ cat.Has (.stream nsId stream streamId)
  | opened ns stream nsId streamId _ _ =>
    cat.Has (.ns ns nsId) ∧ cat.Has (.stream nsId stream streamId)
  | written ns stream nsId streamId _ =>
    cat.Has (.ns ns nsId) ∧ cat.Has (.stream nsId stream streamId)

/-- The temporary file is the one that the call writes. -/
def Resolver.OnDisk (w : CatalogDaemon) : Resolver → Prop
  | opened _ _ _ _ _ file => w.tmp = some file ∧ w.content file = none
  | written _ _ _ _ buf => ∃ file, w.tmp = some file ∧ w.content file = some buf
  | _ => True

/-- The snapshot behind the name of the catalog. -/
def CatalogDaemon.Stored (w : CatalogDaemon) (snap : CatalogSnapshot) : Prop :=
  ∃ file, w.dat = some file ∧ w.content file = some snap

structure CatalogInv (w : CatalogDaemon) : Prop where
  valid : w.catalog.Valid
  returned : ∀ r ∈ w.returned,
    w.catalog.Has (.ns r.ns r.nsId) ∧ w.catalog.Has (.stream r.nsId r.stream r.streamId)
  known : ∀ i, (w.resolver i).Known w.catalog
  exclusive : ∀ i j buf buf', (w.resolver i).buffer = some buf → (w.resolver j).buffer = some buf' →
    i = j
  onDisk : ∀ i, (w.resolver i).OnDisk w
  tmp : ∀ file, w.tmp = some file → file < w.files ∧ w.dat ≠ some file
  dat : ∀ file, w.dat = some file → file < w.files ∧ ∃ snap, w.content file = some snap
  stored : ∀ snap, w.Stored snap → ∀ e, SnapshotHas snap e → w.catalog.Has e
  buffered : ∀ i buf, (w.resolver i).buffer = some buf →
    (∀ e, SnapshotHas buf e → w.catalog.Has e) ∧
      ∀ snap, w.Stored snap → ∀ e, SnapshotHas snap e → SnapshotHas buf e
  persisted : ∀ e, w.catalog.Has e → (∃ i, (w.resolver i).Pending) ∨
    (∃ i buf, (w.resolver i).buffer = some buf ∧ SnapshotHas buf e) ∨
      ∃ snap, w.Stored snap ∧ SnapshotHas snap e

section

variable {w w' : CatalogDaemon} {i : ℕ} {r : Resolver}

section

variable (w : CatalogDaemon)

theorem CatalogDaemon.resolver_set_self (i : ℕ) (r : Resolver) : (w.set i r).resolver i = r :=
  update_self ..

theorem CatalogDaemon.resolver_set_ne {j : ℕ} (r : Resolver) (h : j ≠ i) :
    (w.set i r).resolver j = w.resolver j :=
  update_of_ne h ..

end

theorem Resolver.Known.mono {cat cat' : Catalog} (h : r.Known cat)
    (hg : ∀ e, cat.Has e → cat'.Has e) : r.Known cat' := by
  cases r with
  | idle => trivial
  | named ns stream nsId created => exact hg (.ns ns nsId) h
  | _ => exact ⟨hg _ h.1, hg _ h.2⟩

theorem Resolver.OnDisk.of_buffer_none (h : r.buffer = none) : r.OnDisk w := by
  cases r with
  | idle => trivial
  | named ns stream nsId created => trivial
  | unsaved ns stream nsId streamId => trivial
  | _ => cases h

namespace CatalogInv

theorem new : CatalogInv .new where
  valid := Catalog.valid_new
  returned r h := absurd h not_mem_nil
  known _ := trivial
  exclusive i j buf buf' h := by cases h
  onDisk _ := trivial
  tmp file h := by cases h
  dat file h := by cases h
  stored snap h := by
    obtain ⟨file, hd, -⟩ := h
    cases hd
  buffered i buf h := by cases h
  persisted e h := by cases e <;> cases h

theorem buffer_eq_none (h : CatalogInv w) {buf : CatalogSnapshot}
    (hb : (w.resolver i).buffer = some buf) {j : ℕ} (hi : j ≠ i) :
    (w.resolver j).buffer = none := by
  cases hj : (w.resolver j).buffer with
  | none => rfl
  | some buf' => exact absurd (h.exclusive j i buf' buf hj hb) hi

/-- A section of `resolve` may add an entry; then the call will serialise the catalog. -/
theorem grow (h : CatalogInv w) {cat : Catalog} (hv : cat.Valid)
    (hg : ∀ e, w.catalog.Has e → cat.Has e) (hkn : r.Known cat) (hbr : r.buffer = none)
    (ho : (w.resolver i).buffer = none) (hp : (w.resolver i).Pending → r.Pending)
    (hn : ∀ e, cat.Has e → w.catalog.Has e ∨ r.Pending) {returned : List Resolved}
    (hr : ∀ r ∈ returned,
      cat.Has (.ns r.ns r.nsId) ∧ cat.Has (.stream r.nsId r.stream r.streamId)) :
    CatalogInv { ({ w with catalog := cat } : CatalogDaemon).set i r with returned := returned } := by
  have hb : ∀ {j buf}, ((w.set i r).resolver j).buffer = some buf →
      (w.resolver j).buffer = some buf := by
    intro j buf hj
    by_cases hi : j = i
    · subst hi
      rw [w.resolver_set_self, hbr] at hj
      cases hj
    · rwa [w.resolver_set_ne _ hi] at hj
  constructor
  · exact hv
  · exact hr
  · exact (forall_update_iff _ _).mpr ⟨hkn, fun j _ => (h.known j).mono hg⟩
  · exact fun j k buf buf' hj hk => h.exclusive j k buf buf' (hb hj) (hb hk)
  · exact (forall_update_iff w.resolver fun _ r => r.OnDisk w).mpr
      ⟨.of_buffer_none hbr, fun j _ => h.onDisk j⟩
  · exact h.tmp
  · exact h.dat
  · exact fun snap hsn e he => hg e (h.stored snap hsn e he)
  · intro j buf hj
    obtain ⟨hin, hov⟩ := h.buffered j buf (hb hj)
    exact ⟨fun e he => hg e (hin e he), hov⟩
  · intro e he
    show (∃ j, ((w.set i r).resolver j).Pending) ∨
      (∃ j buf, ((w.set i r).resolver j).buffer = some buf ∧ SnapshotHas buf e) ∨ _
    rcases hn e he with hh | hpn
    · rcases h.persisted e hh with ⟨j, hj⟩ | ⟨j, buf, hj, hb⟩ | hs
      · refine .inl ((exists_update_iff _ fun _ r => Resolver.Pending r).mpr ?_)
        by_cases hi : j = i
        · exact .inl (hp (hi ▸ hj))
        · exact .inr ⟨j, hi, hj⟩
      · refine .inr (.inl ⟨j, buf, ?_, hb⟩)
        rw [w.resolver_set_ne, hj]
        rintro rfl
        rw [ho] at hj
        cases hj
      · exact .inr (.inr hs)
    · exact .inl ⟨i, by rwa [w.resolver_set_self]⟩

variable {buf : CatalogSnapshot} {ns stream : String} {nsId streamId : ℕ}

section

variable (h : CatalogInv w)
include h

theorem serialize (hr : w.resolver i = .unsaved ns stream nsId streamId)
    (hb : w.catalog.Serializes buf) (ha : ∀ i, (w.resolver i).buffer = none) :
    CatalogInv (w.set i (.serialized ns stream nsId streamId buf)) := by
  have hh := hb.has_iff h.valid
  have hn := h.known i
  rw [hr] at hn
  have ho : ∀ {j buf'}, ((w.set i (.serialized ns stream nsId streamId buf)).resolver j).buffer =
      some buf' → j = i ∧ buf' = buf := by
    intro j buf' hj
    by_cases hi : j = i
    · subst hi
      rw [w.resolver_set_self] at hj
      cases hj
      exact ⟨rfl, rfl⟩
    · rw [w.resolver_set_ne _ hi, ha j] at hj
      cases hj
  constructor
  · exact h.valid
  · exact h.returned
  · exact (forall_update_iff _ _).mpr ⟨hn, fun j _ => h.known j⟩
  · intro j k buf₁ buf₂ hj hk
    rw [(ho hj).1, (ho hk).1]
  · exact (forall_update_iff w.resolver fun _ r => r.OnDisk w).mpr ⟨trivial, fun j _ => h.onDisk j⟩
  · exact h.tmp
  · exact h.dat
  · exact h.stored
  · intro j buf' hj
    obtain ⟨-, rfl⟩ := ho hj
    exact ⟨fun e => (hh e).mp, fun snap hs e he => (hh e).mpr (h.stored snap hs e he)⟩
  · intro e he
    refine .inr (.inl ⟨i, buf, ?_, (hh e).mpr he⟩)
    rw [w.resolver_set_self]
    rfl

theorem save (ho : (w.resolver i).buffer = some buf) (hb : r.buffer = some buf)
    (hkn : r.Known w.catalog) (hc : w'.catalog = w.catalog) (hg : w'.returned = w.returned)
    (hrs : w'.resolver = (w.set i r).resolver) (hok : r.OnDisk w')
    (hm : ∀ file, w'.tmp = some file → file < w'.files ∧ w'.dat ≠ some file) (hd : w'.dat = w.dat)
    (hfs : w.files ≤ w'.files) (ht : ∀ file, w.dat = some file → w'.content file = w.content file) :
    CatalogInv w' := by
  have hs : ∀ {snap}, w'.Stored snap ↔ w.Stored snap := by
    intro snap
    unfold Stored
    rw [hd]
    refine exists_congr fun file => and_congr_right fun hf => ?_
    rw [ht file hf]
  have ha : ∀ {P : ℕ → Resolver → Prop}, P i r → (∀ j, j ≠ i → P j (w.resolver j)) →
      ∀ j, P j (w'.resolver j) := by
    intro P hi hj
    rw [hrs]
    exact (forall_update_iff _ _).mpr ⟨hi, hj⟩
  have hbs : ∀ j, (w'.resolver j).buffer = (w.resolver j).buffer :=
    ha (P := fun j r => r.buffer = (w.resolver j).buffer) (hb.trans ho.symm)
      fun _ _ => rfl
  constructor
  · rw [hc]
    exact h.valid
  · rw [hc, hg]
    exact h.returned
  · rw [hc]
    exact ha hkn fun j _ => h.known j
  · intro j k buf₁ buf₂ hj hk
    rw [hbs] at hj hk
    exact h.exclusive j k buf₁ buf₂ hj hk
  · exact ha hok fun j hji => .of_buffer_none (h.buffer_eq_none ho hji)
  · exact hm
  · intro file hf
    rw [hd] at hf
    obtain ⟨hlt, hn⟩ := h.dat file hf
    rw [ht file hf]
    exact ⟨hlt.trans_le hfs, hn⟩
  · intro snap hn
    rw [hc]
    exact h.stored snap (hs.mp hn)
  · intro j buf' hj
    rw [hbs] at hj
    rw [hc]
    obtain ⟨hin, hv⟩ := h.buffered j buf' hj
    exact ⟨hin, fun snap hn => hv snap (hs.mp hn)⟩
  · intro e he
    rw [hc] at he
    rcases h.persisted e he with ⟨j, hj⟩ | ⟨j, buf', hj, hb'⟩ | ⟨snap, hn, hh⟩
    · refine .inl ⟨j, ?_⟩
      rw [hrs, w.resolver_set_ne]
      · exact hj
      · rintro rfl
        cases hr : w.resolver j <;> rw [hr] at hj ho <;> first | exact hj | cases ho
    · refine .inr (.inl ⟨j, buf', ?_, hb'⟩)
      rw [hbs]
      exact hj
    · exact .inr (.inr ⟨snap, hs.mpr hn, hh⟩)

theorem create (hr : w.resolver i = .serialized ns stream nsId streamId buf) :
    CatalogInv (w.createTmp.1.set i (.opened ns stream nsId streamId buf w.createTmp.2)) := by
  have ho : (w.resolver i).buffer = some buf := by
    rw [hr]
    rfl
  have hk := h.known i
  rw [hr] at hk
  unfold createTmp
  cases ht : w.tmp with
  | some file =>
    obtain ⟨hlt, hne⟩ := h.tmp file ht
    refine h.save (r := .opened ns stream nsId streamId buf file) ho rfl hk rfl rfl rfl
      ⟨ht, update_self ..⟩ h.tmp rfl le_rfl ?_
    intro file' hd
    have hne' : file' ≠ file := by
      rintro rfl
      exact hne hd
    exact update_of_ne hne' ..
  | none =>
    refine h.save (r := .opened ns stream nsId streamId buf w.files) ho rfl hk rfl rfl rfl
      ⟨rfl, update_self ..⟩ ?_ rfl (Nat.le_succ _) ?_
    · intro file hf
      cases hf
      refine ⟨Nat.lt_succ_self _, fun hd => ?_⟩
      exact lt_irrefl _ (h.dat _ hd).1
    · intro file hd
      exact update_of_ne (h.dat file hd).1.ne ..

theorem write {file : ℕ} {result : Option CatalogSnapshot}
    (hr : w.resolver i = .opened ns stream nsId streamId buf file)
    (hs : result = some buf ∨ w.content file ≠ none ∧ result = none) :
    CatalogInv ((w.setContent file result).set i (.written ns stream nsId streamId buf)) := by
  have ho : (w.resolver i).buffer = some buf := by
    rw [hr]
    rfl
  have hk := h.known i
  rw [hr] at hk
  obtain ⟨ht, he⟩ : w.tmp = some file ∧ w.content file = none := by
    have hdk := h.onDisk i
    rw [hr] at hdk
    exact hdk
  have hw : result = some buf := hs.resolve_right fun hm => hm.1 he
  refine h.save (r := .written ns stream nsId streamId buf) ho rfl hk rfl rfl rfl
    ⟨file, ht, ?_⟩ h.tmp rfl le_rfl ?_
  · rw [← hw]
    exact update_self ..
  · intro file' hd
    have hne' : file' ≠ file := by
      rintro rfl
      exact (h.tmp file' ht).2 hd
    exact update_of_ne hne' ..

theorem rename {file : ℕ}
    (ha : w.resolver i = .written ns stream nsId streamId buf) (ht : w.tmp = some file) :
    CatalogInv (({ w with tmp := none, dat := some file } : CatalogDaemon).finish i
      ⟨ns, stream, nsId, streamId⟩) := by
  have hb : (w.resolver i).buffer = some buf := by
    rw [ha]
    rfl
  have hk := h.known i
  rw [ha] at hk
  have hc : w.content file = some buf := by
    have hdk := h.onDisk i
    rw [ha] at hdk
    obtain ⟨file', ht', hc⟩ := hdk
    cases ht.symm.trans ht'
    exact hc
  obtain ⟨hi, ho⟩ := h.buffered i buf hb
  have hs : ∀ {snap}, (({ w with tmp := none, dat := some file } : CatalogDaemon).finish i
      ⟨ns, stream, nsId, streamId⟩).Stored snap ↔ snap = buf := by
    intro snap
    constructor
    · rintro ⟨file', hd, hn⟩
      cases hd
      exact (some.inj (hc.symm.trans hn)).symm
    · rintro rfl
      exact ⟨file, rfl, hc⟩
  have hnn : ∀ j, ((w.set i .idle).resolver j).buffer = none :=
    (forall_update_iff w.resolver fun _ r => r.buffer = none).mpr
      ⟨rfl, fun _ => h.buffer_eq_none hb⟩
  constructor
  · exact h.valid
  · intro r hr
    rcases mem_cons.mp hr with rfl | hr
    · exact hk
    · exact h.returned r hr
  · exact (forall_update_iff _ _).mpr ⟨trivial, fun j _ => h.known j⟩
  · intro j k buf₁ buf₂ hj
    have hj' : ((w.set i .idle).resolver j).buffer = some buf₁ := hj
    rw [hnn] at hj'
    cases hj'
  · exact fun j => .of_buffer_none (hnn j)
  · intro file' hf'
    cases hf'
  · intro file' hf'
    cases hf'
    exact ⟨(h.tmp file ht).1, buf, hc⟩
  · intro snap hn
    cases hs.mp hn
    exact hi
  · intro j buf' hj
    have hj' : ((w.set i .idle).resolver j).buffer = some buf' := hj
    rw [hnn] at hj'
    cases hj'
  · intro e he
    rcases h.persisted e he with ⟨j, hj⟩ | ⟨j, buf', hj, hb'⟩ | ⟨snap, hn, hh⟩
    · refine .inl ⟨j, ?_⟩
      show ((w.set i .idle).resolver j).Pending
      rw [w.resolver_set_ne]
      · exact hj
      · rintro rfl
        rw [ha] at hj
        exact hj
    · cases h.exclusive j i buf' buf hj hb
      cases hj.symm.trans hb
      exact .inr (.inr ⟨buf, hs.mpr rfl, hb'⟩)
    · exact .inr (.inr ⟨buf, hs.mpr rfl, ho snap hn e hh⟩)

theorem stored_of_rest (hr : ∀ i, w.resolver i = .idle) {e : CatalogEntry}
    (he : w.catalog.Has e) : ∃ snap, w.Stored snap ∧ SnapshotHas snap e := by
  rcases h.persisted e he with ⟨j, hj⟩ | ⟨j, buf, hj, -⟩ | hs
  · rw [hr j] at hj
    exact hj.elim
  · rw [hr j] at hj
    cases hj
  · exact hs

theorem restart {cat : Catalog} (hv : cat.Valid)
    (hh : ∀ e, cat.Has e ↔ w.catalog.Has e) (ht : ∀ i, w.resolver i = .idle) :
    CatalogInv { w with catalog := cat, resolver := fun _ => .idle } where
  valid := hv
  returned r hr := by
    obtain ⟨hn, hs⟩ := h.returned r hr
    exact ⟨(hh _).mpr hn, (hh _).mpr hs⟩
  known _ := trivial
  exclusive j k buf buf' hj := by cases hj
  onDisk _ := trivial
  tmp := h.tmp
  dat := h.dat
  stored snap hsn e he := (hh e).mpr (h.stored snap hsn e he)
  buffered j buf hj := by cases hj
  persisted e he := .inr (.inr (h.stored_of_rest ht ((hh e).mp he)))

theorem step {ev : CatalogEvent} (hok : ev.Careful w)
    (htr : CatalogTrans w ev w') : CatalogInv w' := by
  cases htr with
  | @resolveNamespace i ns stream cat nsId created hi _ _ hrv =>
    obtain ⟨hf, hm, hh⟩ := Catalog.resolveNamespace_has hrv
    have hg : ∀ e, w.catalog.Has e → cat.Has e := fun e he => (hh e).mpr (.inl he)
    have hk : (Resolver.named ns stream nsId created).Known cat := hf
    refine h.grow (h.valid.resolveNamespace (fun _ => hok) hrv) hg hk rfl ?_ ?_ ?_ ?_
    · rw [hi]
      rfl
    · rw [hi]
      exact False.elim
    · intro e he
      cases created with
      | true => exact .inr rfl
      | false =>
        rw [hm rfl] at he
        exact .inl he
    · exact fun r hr => ⟨hg _ (h.returned r hr).1, hg _ (h.returned r hr).2⟩
  | @resolveOld i ns stream cat nsId streamId hc hrv =>
    obtain ⟨hf, hm, -⟩ := Catalog.resolveStream_has hrv
    have hk := h.known i
    rw [hc] at hk
    cases hm rfl
    have hi : Resolver.idle.Known w.catalog := trivial
    refine h.grow h.valid (fun _ he => he) hi rfl ?_ ?_ (fun e => .inl) ?_
    · rw [hc]
      rfl
    · rw [hc]
      exact fun ha => Bool.noConfusion ha
    · intro r hr
      rcases mem_cons.mp hr with rfl | hr
      · exact ⟨hk, hf⟩
      · exact h.returned r hr
  | @resolveNew i ns stream cat nsId streamId created created' hc hrv _ =>
    obtain ⟨hf, -, hh⟩ := Catalog.resolveStream_has hrv
    have hg : ∀ e, w.catalog.Has e → cat.Has e := fun e he => (hh e).mpr (.inl he)
    have hn := h.known i
    rw [hc] at hn
    have hk : (Resolver.unsaved ns stream nsId streamId).Known cat := ⟨hg _ hn, hf⟩
    refine h.grow (h.valid.resolveStream ⟨ns, hn⟩ (fun _ => hok) hrv) hg hk rfl ?_
      (fun _ => trivial) (fun _ _ => .inr trivial) ?_
    · rw [hc]
      rfl
    · exact fun r hr => ⟨hg _ (h.returned r hr).1, hg _ (h.returned r hr).2⟩
  | serialize hc hb => exact h.serialize hc hb hok
  | create hc => exact h.create hc
  | write hc hrs => exact h.write hc hrs
  | rename hc ht => exact h.rename hc ht
  | restartNew hd =>
    refine h.restart Catalog.valid_new (fun e => ⟨fun he => ?_, fun he => ?_⟩) hok
    · cases e <;> cases he
    · obtain ⟨snap, ⟨file, hd', -⟩, -⟩ := h.stored_of_rest hok he
      rw [hd] at hd'
      cases hd'
  | @restart file snap hd hsn =>
    have hs : w.Stored snap := ⟨file, hd, hsn⟩
    have hh : ∀ e, SnapshotHas snap e ↔ w.catalog.Has e := by
      refine fun e => ⟨h.stored snap hs e, fun he => ?_⟩
      obtain ⟨snap', ⟨file', hd', hs'⟩, hin⟩ := h.stored_of_rest hok he
      cases hd.symm.trans hd'
      cases hsn.symm.trans hs'
      exact hin
    refine h.restart (h.valid.loadSnapshot hh) (fun e => ?_) hok
    exact (Catalog.loadSnapshot_has_iff (fun e => (hh e).mp) e).trans (hh e)
  | _ => exact hok.elim

end

theorem reachable (h : CatalogReachable (fun w ev => ev.Careful w) w) : CatalogInv w :=
  invariant_of_steps h .new fun _ _ h ⟨_, hok, ht⟩ => h.step hok ht

end CatalogInv

end

/-- If saves do not fail or overlap and the daemon restarts only at rest, then over all restarts a
namespace id stands for one name and a stream id for one stream, and names keep their ids. -/
theorem resolved_ids_stable {w : CatalogDaemon}
    (h : CatalogReachable (fun w ev => ev.Careful w) w) {r r' : Resolved} (hr : r ∈ w.returned)
    (hr' : r' ∈ w.returned) :
    (r.ns = r'.ns ↔ r.nsId = r'.nsId) ∧
      (r.ns = r'.ns ∧ r.stream = r'.stream ↔ r.streamId = r'.streamId) := by
  have hi := CatalogInv.reachable h
  obtain ⟨hns, hs⟩ := hi.returned r hr
  obtain ⟨hn', hs'⟩ := hi.returned r' hr'
  have hd : r.ns = r'.ns ↔ r.nsId = r'.nsId := by
    constructor
    · intro heq
      rw [heq] at hns
      exact some.inj (hns.symm.trans hn')
    · intro heq
      rw [heq] at hns
      exact hi.valid.nsInjective _ _ _ hns hn'
  refine ⟨hd, ?_, ?_⟩
  · rintro ⟨heq, heq'⟩
    rw [hd.mp heq, heq'] at hs
    exact some.inj (hs.symm.trans hs')
  · intro heq
    rw [heq] at hs
    obtain ⟨hn, ha⟩ := hi.valid.streamInjective _ _ _ _ _ hs hs'
    exact ⟨hd.mpr hn, ha⟩

/-- A name that is resolved behind a restart gets an id of its own. -/
theorem resolved_ids_stable_over_restart : ∃ w, CatalogReachable (fun w ev => ev.Careful w) w ∧
      w.returned = [⟨"b", "s", 2, 2⟩, ⟨"a", "s", 1, 1⟩] ∧ (("b" = "a") ↔ (2 : ℕ) = 1) := by
  have h₀ : CatalogReachable (fun w ev => ev.Careful w) .new := .refl
  have hr := h₀.step (.resolveNamespace 0 "a" "s") (show 2 < 2 ^ 32 by decide)
      (.resolveNamespace rfl (by decide) (by decide) rfl)
    |>.step (.resolveStream 0) (show 2 < 2 ^ 64 by decide) (.resolveNew rfl rfl rfl)
    |>.step (.serialize 0) (by rintro (_ | i) <;> rfl)
      (.serialize rfl ⟨_, _, .refl _, .refl _, rfl⟩)
    |>.step (.create 0) trivial (.create rfl)
    |>.step (.write 0) trivial (.write rfl (.inl rfl))
    |>.step (.rename 0) trivial (.rename rfl rfl)
    |>.step .restart (by rintro (_ | i) <;> rfl) (.restart rfl rfl)
    |>.step (.resolveNamespace 0 "b" "s") (show 3 < 2 ^ 32 by decide)
      (.resolveNamespace rfl (by decide) (by decide) rfl)
    |>.step (.resolveStream 0) (show 3 < 2 ^ 64 by decide) (.resolveNew rfl rfl rfl)
    |>.step (.serialize 0) (by rintro (_ | i) <;> rfl)
      (.serialize rfl ⟨_, _, .refl _, .refl _, rfl⟩)
    |>.step (.create 0) trivial (.create rfl)
    |>.step (.write 0) trivial (.write rfl (.inl rfl))
    |>.step (.rename 0) trivial (.rename rfl rfl)
  refine ⟨_, hr, rfl, ?_⟩
  exact (resolved_ids_stable hr mem_cons_self (mem_cons_of_mem _ mem_cons_self)).1

/-- A save that fails is not reported, and one that was serialised first may land last: either way
a later name gets the ids of an earlier one. -/
theorem resolved_ids_reissued : (∃ w, CatalogReachable (fun _ _ => True) w ∧
      w.returned = [⟨"b", "t", 1, 1⟩, ⟨"a", "s", 1, 1⟩]) ∧
    ∃ w, CatalogReachable (fun _ ev => ∀ i, ev ≠ .fail i) w ∧
      w.returned = [⟨"c", "u", 2, 2⟩, ⟨"a", "s", 1, 1⟩, ⟨"b", "t", 2, 2⟩] := by
  constructor
  · have h₀ : CatalogReachable (fun _ _ => True) .new := .refl
    have hr := h₀.step (.resolveNamespace 0 "a" "s") trivial
        (.resolveNamespace rfl (by decide) (by decide) rfl)
      |>.step (.resolveStream 0) trivial (.resolveNew rfl rfl rfl)
      |>.step (.serialize 0) trivial (.serialize rfl ⟨_, _, .refl _, .refl _, rfl⟩)
      |>.step (.fail 0) trivial (.failOpen rfl)
      |>.step .restart trivial (.restartNew rfl)
      |>.step (.resolveNamespace 0 "b" "t") trivial
        (.resolveNamespace rfl (by decide) (by decide) rfl)
      |>.step (.resolveStream 0) trivial (.resolveNew rfl rfl rfl)
      |>.step (.serialize 0) trivial (.serialize rfl ⟨_, _, .refl _, .refl _, rfl⟩)
      |>.step (.fail 0) trivial (.failOpen rfl)
    exact ⟨_, hr, rfl⟩
  · have h₀ : CatalogReachable (fun _ ev => ∀ i, ev ≠ .fail i) .new := .refl
    have hr := h₀.step (.resolveNamespace 0 "a" "s") nofun
        (.resolveNamespace rfl (by decide) (by decide) rfl)
      |>.step (.resolveStream 0) nofun (.resolveNew rfl rfl rfl)
      |>.step (.serialize 0) nofun (.serialize rfl ⟨_, _, .refl _, .refl _, rfl⟩)
      -- The second call creates, serialises and saves while the first one waits.
      |>.step (.resolveNamespace 1 "b" "t") nofun
        (.resolveNamespace rfl (by decide) (by decide) rfl)
      |>.step (.resolveStream 1) nofun (.resolveNew rfl rfl rfl)
      |>.step (.serialize 1) nofun (.serialize rfl ⟨_, _, .refl _, .refl _, rfl⟩)
      |>.step (.create 1) nofun (.create rfl)
      |>.step (.write 1) nofun (.write rfl (.inl rfl))
      |>.step (.rename 1) nofun (.rename rfl rfl)
      |>.step (.create 0) nofun (.create rfl)
      |>.step (.write 0) nofun (.write rfl (.inl rfl))
      |>.step (.rename 0) nofun (.rename rfl rfl)
      |>.step .restart nofun (.restart rfl rfl)
      |>.step (.resolveNamespace 0 "c" "u") nofun
        (.resolveNamespace rfl (by decide) (by decide) rfl)
      |>.step (.resolveStream 0) nofun (.resolveNew rfl rfl rfl)
      |>.step (.serialize 0) nofun (.serialize rfl ⟨_, _, .refl _, .refl _, rfl⟩)
      |>.step (.create 0) nofun (.create rfl)
      |>.step (.write 0) nofun (.write rfl (.inl rfl))
      |>.step (.rename 0) nofun (.rename rfl rfl)
    exact ⟨_, hr, rfl⟩

end LogDb.Daemon
