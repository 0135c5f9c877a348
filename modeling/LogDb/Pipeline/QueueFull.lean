import LogDb.Pipeline.RingSafe

/-!
When `claim` and `claim_batch` may answer `QueueFull`. The cursor and the watermark are loaded at
two instants; while the watermark stays at or below the loaded cursor, a refusal tells the truth
about the first of them.
-/

namespace LogDb.Pipeline

open Lib Format Function

variable {C : Crates} {cfg : RingConfig} {s s' : RingState}

/-- The producer is inside the loop of `claim` or `claim_batch` with this request. -/
def ProducerPc.Claiming (req : Request) : ProducerPc → Prop
  | .loadCursor r => r = req
  | .loadCommitted r _ => r = req
  | .loadSealed r _ _ => r = req
  | .gate r _ _ => r = req
  | .cas r _ _ => r = req
  | _ => False

/-- The ring has no room for the request at this instant. -/
def RingState.Full (cfg : RingConfig) (req : Request) (s : RingState) : Prop :=
  if req.batch then
    cfg.ringSize < s.producerCursor - s.consumeWatermark cfg + req.contents.length
  else cfg.ringSize ≤ s.producerCursor - s.consumeWatermark cfg

/-- The committer has not passed the cursor that a producer loaded, when that producer takes the
step that loads the committed cursor. -/
def NotOvertaken (s s' : RingState) : Prop :=
  ∀ t req seq, s.producers t = .loadCommitted req seq →
    s'.producers t ≠ .loadCommitted req seq → s.committedCursor ≤ seq

/-- Since some instant of the call the producer has had `seq` from its load of the cursor, when at
most `wm` was committed. -/
def LoadedAt (run : ℕ → RingState) (j t : ℕ) (req : Request) (seq wm : ℕ) : Prop :=
  ∃ k ≤ j, (∀ l, k ≤ l → l ≤ j → ((run l).producers t).Claiming req) ∧
    (run k).producerCursor = seq ∧ (run k).committedCursor ≤ wm

/-- What the values a producer has loaded say about the run up to now. -/
def LoadsOk (cfg : RingConfig) (run : ℕ → RingState) (j t : ℕ) : ProducerPc → Prop
  | .loadCommitted req seq => (req.batch = true → req.contents.length ≤ cfg.ringSize) ∧
      LoadedAt run j t req seq (run j).committedCursor
  | .loadSealed req seq committed => (req.batch = true → req.contents.length ≤ cfg.ringSize) ∧
      cfg.hashEnabled = true ∧ committed ≤ seq ∧ LoadedAt run j t req seq committed
  | .gate req seq wm => (req.batch = true → req.contents.length ≤ cfg.ringSize) ∧
      wm ≤ seq ∧ LoadedAt run j t req seq wm
  | _ => True

theorem RingStep.producer_of_ne {t : ℕ} (hs : RingStep C cfg s s')
    (hne : s'.producers t ≠ s.producers t) : ProducerStep cfg t s s' := by
  cases hs with
  | sealer hs => cases hs <;> exact absurd rfl hne
  | committer hs => cases hs <;> exact absurd rfl hne
  | producer t' hs =>
    by_cases ht : t = t'
    · exact ht ▸ hs
    · refine absurd ?_ hne
      cases hs <;> exact update_of_ne ht _ _

theorem ProducerStep.queueFull_cases {t : ℕ} (hs : ProducerStep cfg t s s')
    (hf : s'.producers t = .queueFull) :
    (∃ req, s.producers t = .loadCursor req ∧ req.batch = true ∧
      cfg.ringSize < req.contents.length) ∨
    ∃ req seq wm, s.producers t = .gate req seq wm ∧ cfg.full req seq wm = true := by
  cases hs with
  | tooLong req hp hb hl => exact .inl ⟨req, hp, hb, hl⟩
  | dropped req seq wm hp hr => exact .inr ⟨req, seq, wm, hp, hr⟩
  | loadCommitted req seq hp =>
    have hp' := (update_self ..).symm.trans hf
    split_ifs at hp'
  | publish req seq ts i hp =>
    have hp' := (update_self ..).symm.trans hf
    split_ifs at hp'
  | _ => cases (update_self ..).symm.trans hf

section Runs

variable {run : ℕ → RingState} {n j t : ℕ} {req : Request} {seq wm : ℕ}

theorem LoadedAt.step (h : LoadedAt run j t req seq wm)
    (hm : ((run (j + 1)).producers t).Claiming req) {wm' : ℕ} (hw : wm ≤ wm') :
    LoadedAt run (j + 1) t req seq wm' := by
  obtain ⟨k, hk, hcl, hc, ho⟩ := h
  refine ⟨k, Nat.le_succ_of_le hk, fun l hkl hl => ?_, hc, ho.trans hw⟩
  rcases lt_or_eq_of_le hl with hlt | rfl
  · exact hcl l hkl (Nat.le_of_lt_succ hlt)
  · exact hm

/-- The step of another thread leaves the loaded values as true as they were. -/
theorem LoadsOk.frame (h : LoadsOk cfg run j t ((run j).producers t))
    (hs : (run (j + 1)).producers t = (run j).producers t)
    (hc : (run j).committedCursor ≤ (run (j + 1)).committedCursor) :
    LoadsOk cfg run (j + 1) t ((run (j + 1)).producers t) := by
  rw [hs]
  cases hp : (run j).producers t with
  | loadCommitted req seq =>
    rw [hp] at h hs
    exact ⟨h.1, h.2.step (by rw [hs]; rfl) hc⟩
  | loadSealed req seq committed =>
    rw [hp] at h hs
    exact ⟨h.1, h.2.1, h.2.2.1, h.2.2.2.step (by rw [hs]; rfl) le_rfl⟩
  | gate req seq wm =>
    rw [hp] at h hs
    exact ⟨h.1, h.2.1, h.2.2.step (by rw [hs]; rfl) le_rfl⟩
  | _ => trivial

theorem LoadsOk.step (hi : RingInv C cfg (run j)) (hsp : RingStep C cfg (run j) (run (j + 1)))
    (hcd : NotOvertaken (run j) (run (j + 1))) (h : LoadsOk cfg run j t ((run j).producers t)) :
    LoadsOk cfg run (j + 1) t ((run (j + 1)).producers t) := by
  have hn := (hi.cursors_le hsp).2
  by_cases hsm : (run (j + 1)).producers t = (run j).producers t
  · exact h.frame hsm hn
  have hc' := hcd t
  have hp := hsp.producer_of_ne hsm
  have he : ∀ pc, run (j + 1) = (run j).setProducer t pc → (run (j + 1)).producers t = pc ∧
        (run (j + 1)).producerCursor = (run j).producerCursor ∧
        (run (j + 1)).committedCursor = (run j).committedCursor := by
    intro pc heq
    rw [heq]
    exact ⟨update_self _ _ _, rfl, rfl⟩
  generalize hs' : run (j + 1) = s' at hp
  cases hp with
  | loadCursor req hpc hs =>
    obtain ⟨hp', hc, ho⟩ := he _ hs'
    rw [← hs', hp']
    refine ⟨hs, j + 1, le_rfl, ?_, hc, le_rfl⟩
    intro l hl hl'
    obtain rfl : l = j + 1 := by omega
    rw [hp']
    rfl
  | loadCommitted req seq hpc =>
    obtain ⟨hp', -, -⟩ := he _ hs'
    rw [hpc] at h
    obtain ⟨hs, hd⟩ := h
    have hle : (run j).committedCursor ≤ seq := hc' req seq hpc (hpc ▸ hsm)
    rw [← hs', hp']
    split_ifs at hp' ⊢ with hh
    · exact ⟨hs, hh, hle, hd.step (by rw [hp']; rfl) le_rfl⟩
    · exact ⟨hs, hle, hd.step (by rw [hp']; rfl) le_rfl⟩
  | loadSealed req seq committed hpc =>
    obtain ⟨hp', -, -⟩ := he _ hs'
    have hok := hi.producer t
    rw [hpc] at h hok
    obtain ⟨hs, hh, hle, hd⟩ := h
    -- the sealer is never behind the committer, so the committed cursor decides
    have hm : min committed (run j).sealedCursor = committed :=
      min_eq_left (hok.2.trans (hi.committed_ready.2 hh))
    rw [hm] at hp'
    rw [← hs', hp']
    exact ⟨hs, hle, hd.step (by rw [hp']; rfl) le_rfl⟩
  | casOk req seq wm ts hpc heq ha =>
    have hp' : (run (j + 1)).producers t = .write req seq ts 0 := by
      rw [hs']
      exact update_self _ _ _
    rw [← hs', hp']
    trivial
  | write req seq ts i content hpc ht =>
    have hp' : (run (j + 1)).producers t = .publish req seq ts i := by
      rw [hs']
      exact update_self _ _ _
    rw [← hs', hp']
    trivial
  | publish req seq ts i hpc =>
    have hp' : (run (j + 1)).producers t =
        if i + 1 < req.contents.length then .write req seq ts (i + 1) else .claimed req seq := by
      rw [hs']
      exact update_self _ _ _
    rw [← hs', hp']
    split_ifs <;> trivial
  | _ => rw [← hs', (he _ hs').1]; trivial

theorem wrappingSub_of_le {a b : ℕ} (hle : b ≤ a) (hlt : a < 2 ^ 64) : wrappingSub a b = a - b := by
  unfold wrappingSub
  omega

section

variable (hfirst : run 0 = cfg.init) (hrun : IsRun (RingStep C cfg) run n)
include hfirst hrun

theorem RingInv.of_isRun (hj : j ≤ n) : RingInv C cfg (run j) := by
  have hr : RingReachable C cfg (run j) := by
    unfold RingReachable
    rw [← hfirst]
    exact hrun.reaches hj
  exact hr.inv

theorem LoadsOk.of_isRun (hc : ∀ k < n, NotOvertaken (run k) (run (k + 1))) (hj : j ≤ n) (t : ℕ) :
    LoadsOk cfg run j t ((run j).producers t) := by
  induction j with
  | zero =>
    rw [hfirst]
    trivial
  | succ j ih =>
    have hi := RingInv.of_isRun hfirst hrun (Nat.le_of_succ_le hj)
    exact (ih (Nat.le_of_succ_le hj)).step hi (hrun j hj) (hc j hj)

end

/-- In every run in which no committer passes the cursor a producer has loaded before that
producer loads the committed cursor, a refusal is true at some instant of the call, and nothing
wraps. -/
theorem queueFull_truthful (hfirst : run 0 = cfg.init) (hrun : IsRun (RingStep C cfg) run n)
    (hcond : ∀ k < n, NotOvertaken (run k) (run (k + 1))) (hsize : 2 * cfg.ringSize < 2 ^ 64) :
    (∀ j < n, ∀ t req, ((run j).producers t).Claiming req →
      (req.batch = true → req.contents.length ≤ cfg.ringSize) →
      (run (j + 1)).producers t = .queueFull →
      ∃ k ≤ j, (∀ l, k ≤ l → l ≤ j → ((run l).producers t).Claiming req) ∧
        (run k).Full cfg req) ∧
    ∀ j ≤ n, ∀ t req seq wm, (run j).producers t = .gate req seq wm →
      wrappingSub seq wm = seq - wm ∧ wm ≤ seq ∧ seq - wm + req.contents.length < 2 ^ 64 := by
  have hg : ∀ j ≤ n, ∀ t req seq wm, (run j).producers t = .gate req seq wm →
      wrappingSub seq wm = seq - wm ∧ wm ≤ seq ∧ seq - wm + req.contents.length < 2 ^ 64 := by
    intro j hj t req seq wm hp
    have hlo := LoadsOk.of_isRun hfirst hrun hcond hj t
    have hok := (RingInv.of_isRun hfirst hrun hj).producer t
    rw [hp] at hlo hok
    obtain ⟨hs, hle, hd⟩ := hlo
    -- the cursors were loaded within one ring of each other
    obtain ⟨k, hk, -, hu, hm⟩ := hd
    have hi := RingInv.of_isRun hfirst hrun (hk.trans hj)
    have hlt := hi.cursor_lt
    have hrm := hi.cursor_le
    have hl : req.contents.length ≤ cfg.ringSize := by
      cases hb : req.batch with
      | true => exact hs hb
      | false =>
        have ho := hok.1.2.1 hb
        have hge := cfg.ringSize_ge
        omega
    exact ⟨wrappingSub_of_le hle (by omega), hle, by omega⟩
  refine ⟨?_, hg⟩
  intro j hj t req hc hs hf
  have hne : (run (j + 1)).producers t ≠ (run j).producers t := by
    rw [hf]
    intro heq
    rw [← heq] at hc
    exact hc
  rcases ((hrun j hj).producer_of_ne hne).queueFull_cases hf with
    ⟨req', hp, hb, hlg⟩ | ⟨req', seq, wm, hp, hr⟩
  · rw [hp] at hc
    obtain rfl : req' = req := hc
    exact absurd (hs hb) (not_le.mpr hlg)
  · rw [hp] at hc
    obtain rfl : req' = req := hc
    obtain ⟨hsub, hle, hlt⟩ := hg j hj.le t req' seq wm hp
    have hlo := LoadsOk.of_isRun hfirst hrun hcond hj.le t
    rw [hp] at hlo
    obtain ⟨k, hk, hcl, hu, hm⟩ := hlo.2.2
    refine ⟨k, hk, hcl, ?_⟩
    have hi := RingInv.of_isRun hfirst hrun (hk.trans hj.le)
    unfold RingState.Full
    unfold RingConfig.full at hr
    rw [hi.consumeWatermark_eq, hu]
    rw [hsub, Nat.mod_eq_of_lt hlt] at hr
    split_ifs at hr ⊢
    · have := of_decide_eq_true hr
      omega
    · have := of_decide_eq_true hr
      omega

end Runs

def plainRing : RingConfig :=
  { smallRing with hashEnabled := false }

def fullRequest : Request :=
  ⟨true, List.replicate 16 [104, 105]⟩

theorem queueFull_truthful_full : ∃ run j, run 0 = plainRing.init ∧
    IsRun (RingStep rawCrates plainRing) run (j + 1) ∧ (run (j + 1)).producers 1 = .queueFull ∧
    ∃ k ≤ j, (run k).Full plainRing hiRequest := by
  have hq : plainRing.Accepts hiRequest := ⟨by decide, fun _ => rfl, by decide⟩
  have hq' : plainRing.Accepts fullRequest := ⟨by decide, nofun, by decide⟩
  have hc := (((((Relation.ReflTransGen.refl.tail
    ⟨RingStep.producer 0 (.start fullRequest rfl hq'), rfl⟩).tail
    ⟨.producer 0 (.loadCursor fullRequest rfl (by decide)), rfl⟩).tail
    ⟨.producer 0 (.loadCommitted fullRequest 0 rfl), rfl⟩).tail
    ⟨.producer 0 (.pass fullRequest 0 0 rfl (by decide)), rfl⟩).tail
    ⟨.producer 0 (.casOk fullRequest 0 0 7 rfl rfl (by decide)), rfl⟩ :
    Relation.ReflTransGen (fun a b => RingStep rawCrates plainRing a b ∧ b.committedCursor = 0)
      plainRing.init _)
  have hg := ((hc.tail ⟨.producer 1 (.start hiRequest rfl hq), rfl⟩).tail
    ⟨.producer 1 (.loadCursor hiRequest rfl (by decide)), rfl⟩).tail
    ⟨.producer 1 (.loadCommitted hiRequest 16 rfl), rfl⟩
  obtain ⟨run, j, hfirst, hl, hrun, ha⟩ := exists_isRun hg rfl
  have hp : (run j).producers 1 = .gate hiRequest 16 0 := by rw [hl]; rfl
  have hd : RingStep rawCrates plainRing (run j) ((run j).setProducer 1 .queueFull) :=
    .producer 1 (.dropped hiRequest 16 0 hp (by decide))
  obtain ⟨run', hs, he, hr'⟩ := hrun.snoc hd
  have hf : (run' (j + 1)).producers 1 = .queueFull := by
    rw [he]
    simp [RingState.setProducer]
  have hf' := (hs 0 (Nat.zero_le j)).trans hfirst
  have hcd : ∀ k < j + 1, NotOvertaken (run' k) (run' (k + 1)) := by
    intro k hk t req seq _ _
    rw [hs k (Nat.le_of_lt_succ hk), ha k (Nat.le_of_lt_succ hk)]
    exact Nat.zero_le seq
  obtain ⟨ht, -⟩ := queueFull_truthful hf' hr' hcd (by decide)
  obtain ⟨k, hk, -, hkl⟩ := ht j (lt_add_one j) 1 hiRequest
    (by rw [hs j le_rfl, hp]; rfl) (by decide) hf
  exact ⟨run', j, hf', hr', hf, k, hk, hkl⟩

/-- A producer that is overtaken between its two loads is refused although no more than one record
was ever in flight. -/
theorem overtaken_producer_is_refused : ∃ run n, run 0 = plainRing.init ∧
    IsRun (RingStep rawCrates plainRing) run n ∧
    (run n).producers 0 = .queueFull ∧
    ∀ k ≤ n, (run k).producerCursor - (run k).consumeWatermark plainRing ≤ 1 := by
  have hq : plainRing.Accepts hiRequest := ⟨by decide, fun _ => rfl, by decide⟩
  have hd := ((Relation.ReflTransGen.refl.tail
    ⟨RingStep.producer 0 (.start hiRequest rfl hq), by decide⟩).tail
    ⟨RingStep.producer 0 (.loadCursor hiRequest rfl (by decide)), by decide⟩ :
    Relation.ReflTransGen (fun a b => RingStep rawCrates plainRing a b ∧ b.producerCursor ≤ 1)
      plainRing.init _)
  have hs := (((hd.tail ⟨.producer 1 (.start hiRequest rfl hq), by decide⟩).tail
    ⟨.producer 1 (.loadCursor hiRequest rfl (by decide)), by decide⟩).tail
    ⟨.producer 1 (.loadCommitted hiRequest 0 rfl), by decide⟩).tail
    ⟨.producer 1 (.pass hiRequest 0 0 rfl (by decide)), by decide⟩
  have hp := ((hs.tail ⟨.producer 1 (.casOk hiRequest 0 0 7 rfl rfl (by decide)), by decide⟩).tail
    ⟨.producer 1 (.write hiRequest 0 7 0 [104, 105] rfl rfl), by decide⟩).tail
    ⟨.producer 1 (.publish hiRequest 0 7 0 rfl), by decide⟩
  have hc := ((((((hp.tail ⟨.committer (.scan rfl rfl), by decide⟩).tail
    ⟨.committer (.more 0 rfl (by decide +kernel)), by decide⟩).tail
    ⟨.committer (.stop 1 rfl (by decide +kernel)), by decide⟩).tail
    ⟨.committer (.begin 1 0 rfl (by decide) (by decide)), by decide⟩).tail
    ⟨.committer (.read 0 0 rfl), by decide⟩).tail
    ⟨.committer (.last 0 rfl), by decide⟩).tail
    ⟨.committer (.store 1 rfl), by decide⟩
  have hr := (hc.tail ⟨.producer 0 (.loadCommitted hiRequest 0 rfl), by decide⟩).tail
    ⟨.producer 0 (.dropped hiRequest 0 1 rfl (by decide)), by decide⟩
  obtain ⟨run, n, hfirst, hl, hrun, ha⟩ := exists_isRun hr (Nat.zero_le _)
  refine ⟨run, n, hfirst, hrun, by rw [hl]; rfl, fun k hk => ?_⟩
  have hle := ha k hk
  omega

end LogDb.Pipeline
