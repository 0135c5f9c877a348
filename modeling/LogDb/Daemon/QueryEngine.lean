import LogDb.Daemon.Record

/-!
The query engine over the records of one stream. The records come in the order of their ids, which
on several shards is not the order of their sequence numbers.
-/

namespace LogDb.Daemon

open Lib List

structure MetadataFilter where
  key : String
  value : String

structure AbsentMatch where
  peerEventTypes : List String
  joinKey : String

inductive QueryResult where
  | records
  | count
  | «exists»
  | countDistinct
  | min
  | max
  | distinctValues

structure Query where
  eventTypes : List String := []
  fromSeq : Option UInt64 := none
  toSeq : Option UInt64 := none
  metadata : List MetadataFilter := []
  result : QueryResult := .records
  aggregateField : Option String := none
  absent : Option AbsentMatch := none
  limit : ℕ := 0
  descending : Bool := false

inductive ResultSet where
  | records (rows : List DecodedRecord)
  | count (n : ℕ)
  | «exists» (found : Bool)
  | countDistinct (n : ℕ)
  | min (n : ℕ)
  | max (n : ℕ)
  | distinctValues (values : List String)

namespace Query

def matchesEventTypes (r : DecodedRecord) (eventTypes : List String) : Bool :=
  eventTypes.isEmpty || eventTypes.any fun e => e = r.eventType

def matchesSeqRange (r : DecodedRecord) (fromSeq toSeq : Option UInt64) : Bool :=
  fromSeq.all (fun f => f ≤ r.seq) && toSeq.all fun t => r.seq ≤ t

def matchesMetadata (r : DecodedRecord) (filters : List MetadataFilter) : Bool :=
  filters.all fun f => r.metadata.lookup f.key = some f.value

def peerKeys (absent : AbsentMatch) (records : List DecodedRecord) : List String :=
  (records.filter fun r => absent.peerEventTypes.any fun e => e = r.eventType).filterMap
    fun r => r.metadata.lookup absent.joinKey

/-- A candidate without the join key is kept. -/
def applyAbsent (candidates records : List DecodedRecord) :
    Option AbsentMatch → List DecodedRecord
  | none => candidates
  | some absent => candidates.filter fun r =>
      (r.metadata.lookup absent.joinKey).all fun v => v ∉ peerKeys absent records

def truncate {α : Type*} (limit : ℕ) (rows : List α) : List α :=
  if limit > 0 ∧ rows.length > limit then rows.take limit else rows

def sortAndLimit (rows : List DecodedRecord) (descending : Bool) (limit : ℕ) :
    List DecodedRecord :=
  truncate limit (rows.mergeSort fun a b => if descending then b.seq ≤ a.seq else a.seq ≤ b.seq)

def fieldValue (field : Option String) (r : DecodedRecord) : Option String :=
  match field with
  | some f => r.metadata.lookup f
  | none => some (toString r.seq)

/-- The values in the order of their first occurrences. -/
def distinctFieldValues (records : List DecodedRecord) (field : Option String) : List String :=
  (records.filterMap (fieldValue field)).eraseDups

def parseU64 (s : String) : Option ℕ :=
  let digits := if s.toList.head? = some '+' then s.toList.tail else s.toList
  let n := digits.foldl (fun n c => 10 * n + (c.toNat - 48)) 0
  if digits ≠ [] ∧ digits.all Char.isDigit ∧ n < 2 ^ 64 then some n else none

def numericValue (field : Option String) (r : DecodedRecord) : Option ℕ :=
  match field with
  | some f => (r.metadata.lookup f).bind parseU64
  | none => some r.seq.toNat

/-- Zero if no record has a number there. -/
def numericExtremum (records : List DecodedRecord) (field : Option String) (isMin : Bool) : ℕ :=
  ((records.filterMap (numericValue field)).foldl (fun best n =>
    some (best.elim n fun b => if isMin then min b n else max b n)) none).getD 0

variable (q : Query)

def filtered (records : List DecodedRecord) : List DecodedRecord :=
  applyAbsent (records.filter fun r => matchesEventTypes r q.eventTypes &&
    matchesSeqRange r q.fromSeq q.toSeq && matchesMetadata r q.metadata) records q.absent

def distinctValues (filtered : List DecodedRecord) : List String :=
  let vals := distinctFieldValues filtered q.aggregateField
  truncate q.limit (if q.descending then vals.reverse else vals)

def execute (records : List DecodedRecord) : ResultSet :=
  let filtered := q.filtered records
  match q.result with
  | .records => .records (sortAndLimit filtered q.descending q.limit)
  | .count => .count filtered.length
  | .exists => .exists !filtered.isEmpty
  | .countDistinct => .countDistinct (distinctFieldValues filtered q.aggregateField).length
  | .distinctValues => .distinctValues (q.distinctValues filtered)
  | .min => .min (numericExtremum filtered q.aggregateField true)
  | .max => .max (numericExtremum filtered q.aggregateField false)

variable {q} {records xs ys : List DecodedRecord} {field : Option String} {v : String}

/-- Which records pass does not depend on the order. -/
theorem exists_filter (q : Query) (records : List DecodedRecord) :
    ∃ p : DecodedRecord → Bool, ∀ xs, xs.Perm records → q.filtered xs = xs.filter p := by
  unfold filtered
  cases q.absent with
  | none => exact ⟨_, fun _ _ => rfl⟩
  | some absent =>
    refine ⟨fun r => (r.metadata.lookup absent.joinKey).all (fun v => v ∉ peerKeys absent records) &&
      (matchesEventTypes r q.eventTypes && matchesSeqRange r q.fromSeq q.toSeq &&
        matchesMetadata r q.metadata), fun xs hp => ?_⟩
    have hk : ∀ v, v ∈ peerKeys absent xs ↔ v ∈ peerKeys absent records := fun v =>
      ((hp.filter _).filterMap _).mem_iff
    simp only [applyAbsent, hk, filter_filter]

/-- Two sorts of the same records agree when no two records have the same number. -/
theorem sortAndLimit_perm (hs : (ys.map (·.seq)).Nodup) (hp : xs.Perm ys) (descending : Bool)
    (limit : ℕ) : sortAndLimit xs descending limit = sortAndLimit ys descending limit := by
  set le : DecodedRecord → DecodedRecord → Bool := fun a b =>
    if descending then b.seq ≤ a.seq else a.seq ≤ b.seq with hle
  have ho (rows : List DecodedRecord) : (rows.mergeSort le).Pairwise fun a b => le a b = true := by
    refine pairwise_mergeSort (fun a b c hab hc => ?_) (fun a b => ?_) rows <;>
      cases descending <;> simp [hle] at * <;> grind
  have heq : xs.mergeSort le = ys.mergeSort le := by
    refine Perm.eq_of_pairwise (fun a b ha hb hab hba => ?_) (ho xs) (ho ys)
      ((mergeSort_perm xs le).trans (hp.trans (mergeSort_perm ys le).symm))
    refine inj_on_of_nodup_map hs (hp.mem_iff.mp (mem_mergeSort.mp ha)) (mem_mergeSort.mp hb) ?_
    cases descending <;> simp [hle] at hab hba <;> grind
  unfold sortAndLimit
  rw [heq]

theorem numericExtremum_perm (hp : xs.Perm ys) (isMin : Bool) :
    numericExtremum xs field isMin = numericExtremum ys field isMin := by
  unfold numericExtremum
  have : RightCommutative fun (best : Option ℕ) n =>
      some (best.elim n fun b => if isMin then min b n else max b n) := by
    constructor
    rintro (_ | b) m n <;> cases isMin <;> simp <;> omega
  rw [(hp.filterMap _).foldl_eq]

theorem nodup_eraseDups (l : List String) : l.eraseDups.Nodup := by
  match l with
  | [] => simp
  | a :: l =>
    rw [eraseDups_cons]
    exact nodup_cons.mpr ⟨by simp [mem_eraseDups], nodup_eraseDups _⟩
termination_by l.length
decreasing_by exact Nat.lt_succ_of_le (length_filter_le _ _)

theorem distinctFieldValues_perm (hp : xs.Perm ys) :
    (distinctFieldValues xs field).Perm (distinctFieldValues ys field) :=
  (perm_ext_iff_of_nodup (nodup_eraseDups _) (nodup_eraseDups _)).mpr fun v => by
    simp only [mem_eraseDups, (hp.filterMap _).mem_iff]

/-- Any value of a record that passes comes first in the result for some order of the records. -/
theorem exists_perm_head {a : DecodedRecord} (ha : a ∈ q.filtered records)
    (hv : fieldValue q.aggregateField a = some v) :
    ∃ xs, xs.Perm records ∧ (q.distinctValues (q.filtered xs)).head? = some v := by
  obtain ⟨s, hs⟩ := q.exists_filter records
  set f := fieldValue q.aggregateField
  set p : DecodedRecord → Bool := fun r => f r = some v
  rw [hs records .rfl] at ha
  obtain ⟨k, hk⟩ : ∃ k, ((records.filter p).filter s).filterMap f = replicate (k + 1) v := by
    have hm : v ∈ ((records.filter p).filter s).filterMap f :=
      mem_filterMap.mpr ⟨a, by simp_all [p], hv⟩
    exact ⟨_, eq_replicate_iff.mpr ⟨(Nat.succ_pred_eq_of_pos (length_pos_of_mem hm)).symm,
      by simp +contextual [p]⟩⟩
  have hn : v ∉ ((records.filter fun r => !p r).filter s).filterMap f := by
    simp [p]
  have hh (l : List String) : (truncate q.limit l).head? = l.head? := by
    unfold truncate
    split_ifs with h
    · rw [head?_take, if_neg h.1.ne']
    · rfl
  cases hd : q.descending with
  | false =>
    have hp := filter_append_perm p records
    refine ⟨_, hp, ?_⟩
    simp only [hs _ hp, distinctValues, hd, hh, distinctFieldValues, filter_append,
      filterMap_append]
    rw [hk]
    simp [replicate_succ, eraseDups_cons]
  | true =>
    have hp := perm_append_comm.trans (filter_append_perm p records)
    have hls (l : List String) (hl : v ∉ l) :
        (l ++ replicate (k + 1) v).eraseDups.reverse.head? = some v := by
      simp [eraseDups_append, removeAll, hl, replicate_succ, eraseDups_cons]
    refine ⟨_, hp, ?_⟩
    simp only [hs _ hp, distinctValues, hd, hh, distinctFieldValues, filter_append,
      filterMap_append]
    rw [hk]
    exact hls _ hn

theorem execute_perm_iff (q : Query) (records : List DecodedRecord)
    (hseqs : (records.map (·.seq)).Nodup) :
    (∀ xs, xs.Perm records → q.execute xs = q.execute records) ↔
      (q.result = .distinctValues → ∀ a ∈ q.filtered records, ∀ b ∈ q.filtered records,
        ∀ v w, fieldValue q.aggregateField a = some v → fieldValue q.aggregateField b = some w →
          v = w) := by
  obtain ⟨s, hs⟩ := q.exists_filter records
  constructor
  · intro h hr a ha b hb v w hv hw
    obtain ⟨xs, hxs, hx⟩ := exists_perm_head ha hv
    obtain ⟨ys, hys, hy⟩ := exists_perm_head hb hw
    have heq := (h xs hxs).trans (h ys hys).symm
    simp only [execute, hr, ResultSet.distinctValues.injEq] at heq
    rw [heq, hy] at hx
    exact (Option.some.inj hx).symm
  · intro h xs hp
    have hm : (q.filtered xs).Perm (q.filtered records) := by
      rw [hs xs hp, hs records .rfl]
      exact hp.filter s
    unfold execute
    cases hr : q.result with
    | records =>
      have hn : ((q.filtered records).map (·.seq)).Nodup := by
        rw [hs records .rfl]
        exact hseqs.sublist (filter_sublist.map _)
      exact congrArg _ (sortAndLimit_perm hn hm _ _)
    | count => exact congrArg _ hm.length_eq
    | «exists» => simp only [hm.isEmpty_eq]
    | countDistinct => exact congrArg _ (distinctFieldValues_perm hm).length_eq
    | min => exact congrArg _ (numericExtremum_perm hm true)
    | max => exact congrArg _ (numericExtremum_perm hm false)
    | distinctValues =>
      have heq : distinctFieldValues (q.filtered xs) q.aggregateField =
          distinctFieldValues (q.filtered records) q.aggregateField := by
        refine @Perm.eq_of_pairwise _ (fun _ _ => True) _ _ ?_ (pairwise_of_forall fun _ _ => trivial)
          (pairwise_of_forall fun _ _ => trivial) (distinctFieldValues_perm hm)
        simp only [distinctFieldValues, mem_eraseDups, mem_filterMap]
        rintro v w ⟨a, ha, hv⟩ ⟨b, hb, hw⟩ - -
        exact h hr a (hm.mem_iff.mp ha) b hb v w hv hw
      simp only [distinctValues, heq]

def turnRecord (seq : UInt64) (turn : String) : DecodedRecord :=
  ⟨⟨0, 1, seq, "", "", (∅ : SortedMap String String).insert "turn" turn, 0, []⟩, 0⟩

theorem execute_perm_records : execute {} [turnRecord 1 "b", turnRecord 0 "a"] =
      execute {} [turnRecord 0 "a", turnRecord 1 "b"] :=
  (execute_perm_iff {} _ (by decide)).mpr (fun h => by cases h) _ (.swap ..)

/-- The values come in the order of the records and not in the order of their numbers. -/
theorem execute_order_matters : execute { result := .distinctValues, aggregateField := some "turn" }
      [turnRecord 0 "a", turnRecord 1 "b"] = .distinctValues ["a", "b"] ∧
    execute { result := .distinctValues, aggregateField := some "turn" }
      [turnRecord 1 "b", turnRecord 0 "a"] = .distinctValues ["b", "a"] := by
  constructor <;> rfl

end Query

end LogDb.Daemon
