import CryptoCoin.Crates.Discovery

/-!
# The runtime of a node

`NodeRuntime` of the crate `node-core`: the synchronisation status and the latest height,
each behind a lock, the events sent to subscribers, the channel of the shutdown signal,
which holds one message, and the handles of the spawned tasks. Any number of threads call
the runtime, and `Threads` runs their sections and those of the tasks in any order.

`info` reads the status and then the height in one expression, and the first lock is held
to the end of it. A writer of the status waits meanwhile, so every report is a snapshot
(`info_snapshot`).

Only the tasks of `spawn` take the signal out of its channel. Their receiver comes from
`rx.clone()`, which the receiver of such a channel does not have; it is read here as the one
receiver of the runtime, of which every message reaches one task. So each `shutdown` stops
one task at most, and without tasks the first `shutdown` returns and every other one waits
for ever (`shutdown_once`).
-/

namespace CryptoCoin

namespace Crates

namespace Node

open Wire (Bytes)

abbrev BlockHeight := UInt64

inductive SyncStatus where
  | booting
  | syncing (currentHeight targetHeight : BlockHeight)
  | inSync
  | stalled
  deriving DecidableEq

inductive NodeEvent where
  | started
  | shuttingDown (reason : String)
  deriving DecidableEq

def NodeEvent.isShuttingDown : NodeEvent → Bool
  | .started => false
  | .shuttingDown _ => true

structure NodeConfig where
  validatorKeyPath : Option String

structure NodeInfo where
  nodeId : Bytes 20
  version : String
  uptimeSecs : ℕ
  syncStatus : SyncStatus
  latestBlockHeight : BlockHeight
  peerCount : ℕ
  isValidator : Bool

/-- `signals` counts the messages in the channel of the shutdown signal, and a handle is the
number of its task. -/
structure NodeRuntime where
  config : NodeConfig
  nodeId : Bytes 20
  syncStatus : SyncStatus
  latestHeight : BlockHeight
  events : List NodeEvent
  signals : ℕ
  handles : List ℕ

namespace NodeRuntime

def new (config : NodeConfig) (nodeId : Bytes 20) : NodeRuntime :=
  { config := config
    nodeId := nodeId
    syncStatus := .booting
    latestHeight := 0
    events := []
    signals := 0
    handles := [] }

def emit (r : NodeRuntime) (event : NodeEvent) : NodeRuntime :=
  { r with events := event :: r.events }

def updateHeight (r : NodeRuntime) (height : BlockHeight) : NodeRuntime :=
  if r.latestHeight < height then { r with latestHeight := height } else r

def updateSyncStatus (r : NodeRuntime) (status : SyncStatus) : NodeRuntime :=
  { r with syncStatus := status }

/-- The report of `info`, from the uptime and the status that were read before. -/
def info (r : NodeRuntime) (uptimeSecs : ℕ) (syncStatus : SyncStatus) : NodeInfo :=
  { nodeId := r.nodeId
    version := "0.1.0"
    uptimeSecs := uptimeSecs
    syncStatus := syncStatus
    latestBlockHeight := r.latestHeight
    peerCount := 0
    isValidator := r.config.validatorKeyPath.isSome }

def capacity : ℕ := 1

end NodeRuntime

/-! ### Threads -/

/-- The runtime, the calls that have begun and the tasks. `reading` are the threads in `info`
that hold the lock of the status, with what they have read, `starting` those that have set
the status in `start`, and `spawning` those in `spawn` with the task they have started.
`waiting` are the threads in `shutdown` that have announced it, `joining` those that have
sent the signal, of which `holder` has the lock of the handles. `reports` and `returned`
record what the calls of `info` and `shutdown` have come to.

`running` are the tasks that have not ended, `spawned` counts the tasks and `received` those
that have taken the signal. -/
structure Threads (τ : Type) [DecidableEq τ] where
  runtime : NodeRuntime
  reading : AList fun _ : τ => ℕ × SyncStatus
  starting : Finset τ
  spawning : AList fun _ : τ => ℕ
  waiting : Finset τ
  joining : Finset τ
  holder : Option τ
  reports : List NodeInfo
  returned : ℕ
  running : Finset ℕ
  spawned : ℕ
  received : ℕ

/-- A section of `spawn`, of a task, or of `shutdown` behind the signal. -/
inductive TaskSection (τ : Type) where
  | startTask (t : τ)
  | pushHandle (t : τ)
  | endTask (id : ℕ)
  | receiveSignal (id : ℕ)
  | lockHandles (t : τ)
  | joinTask (t : τ)
  | completeShutdown (t : τ)

inductive Section (τ : Type) where
  | setInSync (t : τ)
  | emitStarted (t : τ)
  | announceShutdown (t : τ) (reason : String)
  | sendSignal (t : τ)
  | readStatus (t : τ) (uptimeSecs : ℕ)
  | readHeight (t : τ)
  | updateHeight (height : BlockHeight)
  | updateSyncStatus (status : SyncStatus)
  | task (sec : TaskSection τ)

namespace Threads

variable {τ : Type} [DecidableEq τ]

def new (config : NodeConfig) (nodeId : Bytes 20) : Threads τ :=
  { runtime := .new config nodeId
    reading := ∅
    starting := ∅
    spawning := ∅
    waiting := ∅
    joining := ∅
    holder := none
    reports := []
    returned := 0
    running := ∅
    spawned := 0
    received := 0 }

def Idle (s : Threads τ) (t : τ) : Prop :=
  t ∉ s.reading ∧ t ∉ s.starting ∧ t ∉ s.spawning ∧ t ∉ s.waiting ∧ t ∉ s.joining

instance (s : Threads τ) (t : τ) : Decidable (s.Idle t) :=
  inferInstanceAs (Decidable (_ ∧ _ ∧ _ ∧ _ ∧ _))

/-- No thread holds the lock of the status for reading. -/
def Free (s : Threads τ) : Prop := s.reading.entries = []

instance (s : Threads τ) : Decidable s.Free :=
  match h : s.reading.entries with
  | [] => isTrue h
  | e :: rest => isFalse fun hfree => List.cons_ne_nil e rest (h.symm.trans hfree)

/-- A task ends by itself or with the signal. `shutdown` holds the lock of the handles while it
waits for one task after the other, and `spawn` waits for that lock. -/
def stepTask (s : Threads τ) : TaskSection τ → Threads τ
  | .startTask t =>
      if s.Idle t then
        { s with
          spawning := s.spawning.insert t s.spawned
          running := insert s.spawned s.running
          spawned := s.spawned + 1 }
      else s
  | .pushHandle t =>
      match s.spawning.lookup t, s.holder with
      | some id, none =>
          { s with
            runtime := { s.runtime with handles := s.runtime.handles ++ [id] }
            spawning := s.spawning.erase t }
      | _, _ => s
  | .endTask id => { s with running := s.running.erase id }
  | .receiveSignal id =>
      if id ∈ s.running ∧ 0 < s.runtime.signals then
        { s with
          runtime := { s.runtime with signals := s.runtime.signals - 1 }
          running := s.running.erase id
          received := s.received + 1 }
      else s
  | .lockHandles t =>
      if t ∈ s.joining ∧ s.holder = none then { s with holder := some t } else s
  | .joinTask t =>
      match s.runtime.handles with
      | [] => s
      | id :: rest =>
          if s.holder = some t ∧ id ∉ s.running then
            { s with runtime := { s.runtime with handles := rest } }
          else s
  | .completeShutdown t =>
      if s.holder = some t ∧ s.runtime.handles = [] then
        { s with
          holder := none
          joining := s.joining.erase t
          returned := s.returned + 1 }
      else s

/-- A section that must wait for a lock or for room in the channel does nothing yet. -/
def step (s : Threads τ) : Section τ → Threads τ
  | .setInSync t =>
      if s.Idle t ∧ s.Free then
        { s with
          runtime := s.runtime.updateSyncStatus .inSync
          starting := insert t s.starting }
      else s
  | .emitStarted t =>
      if t ∈ s.starting then
        { s with runtime := s.runtime.emit .started, starting := s.starting.erase t }
      else s
  | .announceShutdown t reason =>
      if s.Idle t then
        { s with
          runtime := s.runtime.emit (.shuttingDown reason)
          waiting := insert t s.waiting }
      else s
  | .sendSignal t =>
      if t ∈ s.waiting ∧ s.runtime.signals < NodeRuntime.capacity then
        { s with
          runtime := { s.runtime with signals := s.runtime.signals + 1 }
          waiting := s.waiting.erase t
          joining := insert t s.joining }
      else s
  | .readStatus t uptimeSecs =>
      if s.Idle t then
        { s with reading := s.reading.insert t (uptimeSecs, s.runtime.syncStatus) }
      else s
  | .readHeight t =>
      match s.reading.lookup t with
      | some (uptimeSecs, status) =>
          { s with
            reading := s.reading.erase t
            reports := s.runtime.info uptimeSecs status :: s.reports }
      | none => s
  | .updateHeight height => { s with runtime := s.runtime.updateHeight height }
  | .updateSyncStatus status =>
      if s.Free then { s with runtime := s.runtime.updateSyncStatus status } else s
  | .task sec => s.stepTask sec

/-- What the tasks have nothing to do with. -/
structure SameReports (s s' : Threads τ) : Prop where
  reading : s'.reading = s.reading
  reports : s'.reports = s.reports
  syncStatus : s'.runtime.syncStatus = s.runtime.syncStatus
  latestHeight : s'.runtime.latestHeight = s.runtime.latestHeight

theorem sameReports_stepTask (s : Threads τ) (sec : TaskSection τ) :
    SameReports s (s.stepTask sec) := by
  cases sec with
  | endTask id => exact ⟨rfl, rfl, rfl, rfl⟩
  | joinTask t =>
      simp only [stepTask]
      split
      · exact ⟨rfl, rfl, rfl, rfl⟩
      · split
        · exact ⟨rfl, rfl, rfl, rfl⟩
        · exact ⟨rfl, rfl, rfl, rfl⟩
  | _ =>
      simp only [stepTask]
      split
      · exact ⟨rfl, rfl, rfl, rfl⟩
      · exact ⟨rfl, rfl, rfl, rfl⟩

/-! ### Reports -/

def Current (s : Threads τ) : Prop :=
  ∀ t x, s.reading.lookup t = some x → x.2 = s.runtime.syncStatus

theorem lookup_of_free {s : Threads τ} (h : s.Free) (t : τ) : s.reading.lookup t = none := by
  rw [AList.lookup, h, List.dlookup_nil]

theorem current_of_free {s : Threads τ} (h : s.Free) (runtime : NodeRuntime) :
    Current { s with runtime := runtime } := by
  intro t x hlookup
  have hnone := lookup_of_free h t
  rw [hlookup] at hnone
  cases hnone

theorem current_step {s : Threads τ} (h : s.Current) (sec : Section τ) :
    (s.step sec).Current := by
  cases sec with
  | setInSync t =>
      simp only [step]
      split
      · next hfree => exact current_of_free hfree.2 _
      · exact h
  | emitStarted t =>
      simp only [step]
      split
      · exact h
      · exact h
  | announceShutdown t reason =>
      simp only [step]
      split
      · exact h
      · exact h
  | sendSignal t =>
      simp only [step]
      split
      · exact h
      · exact h
  | readStatus t uptimeSecs =>
      simp only [step]
      split
      · intro t' x hlookup
        by_cases ht : t' = t
        · rw [ht, AList.lookup_insert] at hlookup
          cases hlookup
          rfl
        · rw [AList.lookup_insert_ne ht] at hlookup
          exact h t' x hlookup
      · exact h
  | readHeight t =>
      simp only [step]
      split
      · intro t' x hlookup
        by_cases ht : t' = t
        · rw [ht, AList.lookup_erase] at hlookup
          cases hlookup
        · rw [AList.lookup_erase_ne ht] at hlookup
          exact h t' x hlookup
      · exact h
  | updateHeight height =>
      simp only [step, NodeRuntime.updateHeight]
      split
      · exact h
      · exact h
  | updateSyncStatus status =>
      simp only [step]
      split
      · next hfree => exact current_of_free hfree _
      · exact h
  | task sec =>
      have hsame := sameReports_stepTask s sec
      intro t x hlookup
      rw [step, hsame.syncStatus]
      rw [step, hsame.reading] at hlookup
      exact h t x hlookup

theorem current_run (config : NodeConfig) (nodeId : Bytes 20) (sections : List (Section τ)) :
    (Runs.run step (new config nodeId) sections).Current := by
  apply Runs.invariant (P := fun s : Threads τ => s.Current)
  · intro t x hlookup
    rw [new, AList.lookup_empty] at hlookup
    cases hlookup
  · intro x _ h
    exact current_step h x.2

def reported (s : Threads τ) : Section τ → List NodeInfo
  | .readHeight t => (s.reading.lookup t).toList.map fun x => s.runtime.info x.1 x.2
  | _ => []

theorem reports_step (s : Threads τ) (sec : Section τ) :
    (s.step sec).reports = s.reported sec ++ s.reports := by
  cases sec with
  | readHeight t =>
      cases hlookup : s.reading.lookup t with
      | some x => simp [step, reported, hlookup]
      | none => simp [step, reported, hlookup]
  | updateHeight height => rfl
  | task sec => exact (sameReports_stepTask s sec).reports
  | _ =>
      simp only [step, reported]
      split
      · rfl
      · rfl

theorem latestHeight_step (s : Threads τ) (sec : Section τ) :
    (s.step sec).runtime.latestHeight = s.runtime.latestHeight ∨
      ∃ height, sec = .updateHeight height ∧ s.runtime.latestHeight < height ∧
        (s.step sec).runtime.latestHeight = height := by
  cases sec with
  | updateHeight height =>
      simp only [step, NodeRuntime.updateHeight]
      split
      · next hlt => exact Or.inr ⟨height, rfl, hlt, rfl⟩
      · exact Or.inl rfl
  | task sec => exact Or.inl (sameReports_stepTask s sec).latestHeight
  | readHeight t =>
      simp only [step]
      split
      · exact Or.inl rfl
      · exact Or.inl rfl
  | _ =>
      simp only [step]
      split
      · exact Or.inl rfl
      · exact Or.inl rfl

theorem latestHeight_le_step (s : Threads τ) (sec : Section τ) :
    s.runtime.latestHeight ≤ (s.step sec).runtime.latestHeight := by
  rcases latestHeight_step s sec with hsame | ⟨height, _, hlt, hheight⟩
  · rw [hsame]
    exact UInt64.le_refl _
  · rw [hheight]
    exact UInt64.le_of_lt hlt

theorem le_latestHeight_updateHeight (s : Threads τ) (height : BlockHeight) :
    height ≤ (s.step (.updateHeight height)).runtime.latestHeight := by
  simp only [step, NodeRuntime.updateHeight]
  split
  · exact UInt64.le_refl height
  · next hle => exact UInt64.not_lt.mp hle

/-- The heights of the reports, from the newest on, and the current height above them. -/
def Descending (s : Threads τ) : Prop :=
  (s.runtime.latestHeight :: s.reports.map NodeInfo.latestBlockHeight).Pairwise (· ≥ ·)

theorem descending_step {s : Threads τ} (h : s.Descending) (sec : Section τ) :
    (s.step sec).Descending := by
  obtain ⟨hbelow, hsorted⟩ := List.pairwise_cons.mp h
  have hnew : ∀ info ∈ s.reported sec, info.latestBlockHeight = s.runtime.latestHeight := by
    intro info hinfo
    cases sec with
    | readHeight t =>
        obtain ⟨x, _, rfl⟩ := List.mem_map.mp hinfo
        rfl
    | _ => cases hinfo
  have hgrow := latestHeight_le_step s sec
  rw [Descending, reports_step, List.map_append]
  refine List.pairwise_cons.mpr ⟨?_, List.pairwise_append.mpr ⟨?_, hsorted, ?_⟩⟩
  · intro height hheight
    rcases List.mem_append.mp hheight with hmem | hmem
    · obtain ⟨info, hinfo, rfl⟩ := List.mem_map.mp hmem
      rw [hnew info hinfo]
      exact hgrow
    · exact UInt64.le_trans (hbelow height hmem) hgrow
  · refine List.pairwise_map.mpr (List.pairwise_of_forall_mem_list ?_)
    intro a ha b hb
    rw [hnew a ha, hnew b hb]
    exact UInt64.le_refl _
  · intro a ha b hb
    obtain ⟨info, hinfo, rfl⟩ := List.mem_map.mp ha
    rw [hnew info hinfo]
    exact hbelow b hb

/-- In every interleaving the latest height is the greatest one that was passed to
`update_height`, the reports of `info` show heights that never go down, and every report is
a snapshot: at some moment the node had the status and the height it shows. -/
theorem info_snapshot (config : NodeConfig) (nodeId : Bytes 20) (sections : List (Section τ)) :
    (∀ height, .updateHeight height ∈ sections →
        height ≤ (Runs.run step (new config nodeId) sections).runtime.latestHeight) ∧
      ((Runs.run step (new config nodeId) sections).runtime.latestHeight = 0 ∨
        .updateHeight (Runs.run step (new config nodeId) sections).runtime.latestHeight ∈
          sections) ∧
      ((Runs.run step (new config nodeId) sections).reports.map
        NodeInfo.latestBlockHeight).Pairwise (· ≥ ·) ∧
      ∀ info ∈ (Runs.run step (new config nodeId) sections).reports,
        ∃ pre post, sections = pre ++ post ∧
          info.syncStatus = (Runs.run step (new config nodeId) pre).runtime.syncStatus ∧
          info.latestBlockHeight =
            (Runs.run step (new config nodeId) pre).runtime.latestHeight := by
  refine ⟨?_, ?_, ?_, ?_⟩
  · intro height hmem
    obtain ⟨pre, post, rfl⟩ := List.append_of_mem hmem
    rw [Runs.run_append, Runs.run_cons]
    apply Runs.invariant (P := fun s : Threads τ => height ≤ s.runtime.latestHeight)
    · exact le_latestHeight_updateHeight _ height
    · intro x _ h
      exact UInt64.le_trans h (latestHeight_le_step x.1 x.2)
  · apply Runs.invariant (P := fun s : Threads τ => s.runtime.latestHeight = 0 ∨
      .updateHeight s.runtime.latestHeight ∈ sections) (Or.inl rfl)
    rintro ⟨s, sec⟩ hmem h
    rcases latestHeight_step s sec with hsame | ⟨height, rfl, _, hheight⟩
    · rwa [hsame]
    · obtain ⟨pre, post, hsections, _⟩ := Runs.mem_trace_iff.mp hmem
      right
      rw [hheight, hsections]
      simp
  · have hdescending : (Runs.run step (new config nodeId) sections).Descending := by
      apply Runs.invariant (P := fun s : Threads τ => s.Descending)
      · exact List.pairwise_singleton _ _
      · intro x _ h
        exact descending_step h x.2
    exact (List.pairwise_cons.mp hdescending).2
  · intro info hinfo
    have hlog : ∀ (s : Threads τ) sec a,
        a ∈ (s.step sec).reports ↔ a ∈ s.reported sec ∨ a ∈ s.reports := by
      intro s sec a
      rw [reports_step, List.mem_append]
    rcases (Runs.mem_log_run hlog).mp hinfo with ⟨⟨s, sec⟩, hmem, hreported⟩ | hinit
    · obtain ⟨pre, post, hsections, hs⟩ := Runs.mem_trace_iff.mp hmem
      cases sec with
      | readHeight t =>
          obtain ⟨x, hx, rfl⟩ := List.mem_map.mp hreported
          have hcurrent := current_run config nodeId pre t x
          rw [← hs] at hcurrent
          refine ⟨pre, _, hsections, ?_, ?_⟩
          · rw [← hs]
            exact hcurrent (Option.mem_toList.mp hx)
          · rw [← hs]
            rfl
      | _ => cases hreported
    · cases hinit

/-! ### Shutdown -/

/-- A call of `shutdown` waits for the channel, or has sent the signal and may have returned.
Each signal is in the channel or was taken by a task. -/
structure Counted (s : Threads τ) : Prop where
  events : s.runtime.events.countP NodeEvent.isShuttingDown =
    s.returned + s.joining.card + s.waiting.card
  signals : s.returned + s.joining.card = s.runtime.signals + s.received
  room : s.runtime.signals ≤ NodeRuntime.capacity
  tasks : s.received + s.running.card ≤ s.spawned

/-- The lock of the handles is held in a call of `shutdown`, and a thread is in one call. -/
structure Apart (s : Threads τ) : Prop where
  holder : ∀ t, s.holder = some t → t ∈ s.joining
  disjoint : ∀ t ∈ s.waiting, t ∉ s.joining

/-- What the accounting of `shutdown` reads is left alone. -/
structure SameShutdown (s s' : Threads τ) : Prop where
  events : s'.runtime.events.countP NodeEvent.isShuttingDown =
    s.runtime.events.countP NodeEvent.isShuttingDown
  signals : s'.runtime.signals = s.runtime.signals
  waiting : s'.waiting = s.waiting
  joining : s'.joining = s.joining
  holder : s'.holder = s.holder
  returned : s'.returned = s.returned
  running : s'.running = s.running
  spawned : s'.spawned = s.spawned
  received : s'.received = s.received

theorem SameShutdown.refl (s : Threads τ) : SameShutdown s s :=
  ⟨rfl, rfl, rfl, rfl, rfl, rfl, rfl, rfl, rfl⟩

/-- The sections of `start`, `info` and the updates, and those that only move handles. -/
def ignoresShutdown : Section τ → Bool
  | .announceShutdown _ _ => false
  | .sendSignal _ => false
  | .task (.pushHandle _) => true
  | .task (.joinTask _) => true
  | .task _ => false
  | _ => true

theorem sameShutdown_step (s : Threads τ) {sec : Section τ} (h : ignoresShutdown sec = true) :
    SameShutdown s (s.step sec) := by
  cases sec with
  | announceShutdown t reason => cases h
  | sendSignal t => cases h
  | updateHeight height =>
      simp only [step, NodeRuntime.updateHeight]
      split
      · exact ⟨rfl, rfl, rfl, rfl, rfl, rfl, rfl, rfl, rfl⟩
      · exact .refl s
  | task sec =>
      cases sec with
      | pushHandle t =>
          simp only [step, stepTask]
          split
          · exact ⟨rfl, rfl, rfl, rfl, rfl, rfl, rfl, rfl, rfl⟩
          · exact .refl s
      | joinTask t =>
          simp only [step, stepTask]
          split
          · exact .refl s
          · split
            · exact ⟨rfl, rfl, rfl, rfl, rfl, rfl, rfl, rfl, rfl⟩
            · exact .refl s
      | _ => cases h
  | _ =>
      simp only [step]
      split
      · exact ⟨rfl, rfl, rfl, rfl, rfl, rfl, rfl, rfl, rfl⟩
      · exact .refl s

theorem Apart.of_same {s s' : Threads τ} (h : s.Apart) (hsame : SameShutdown s s') :
    s'.Apart := by
  constructor
  · rw [hsame.holder, hsame.joining]
    exact h.holder
  · rw [hsame.waiting, hsame.joining]
    exact h.disjoint

theorem Counted.of_same {s s' : Threads τ} (h : s.Counted) (hsame : SameShutdown s s') :
    s'.Counted := by
  constructor
  · rw [hsame.events, hsame.returned, hsame.joining, hsame.waiting]
    exact h.events
  · rw [hsame.returned, hsame.joining, hsame.signals, hsame.received]
    exact h.signals
  · rw [hsame.signals]
    exact h.room
  · rw [hsame.received, hsame.running, hsame.spawned]
    exact h.tasks

theorem apart_stepTask {s : Threads τ} (h : s.Apart) (sec : TaskSection τ) :
    (s.step (.task sec)).Apart := by
  cases sec with
  | pushHandle t => exact h.of_same (sameShutdown_step s rfl)
  | joinTask t => exact h.of_same (sameShutdown_step s rfl)
  | endTask id => exact ⟨h.holder, h.disjoint⟩
  | lockHandles t =>
      simp only [step, stepTask]
      split
      · next hlock =>
          refine ⟨?_, h.disjoint⟩
          intro t' ht'
          cases ht'
          exact hlock.1
      · exact h
  | completeShutdown t =>
      simp only [step, stepTask]
      split
      · constructor
        · intro t' ht'
          cases ht'
        · intro t' ht' hmem
          exact h.disjoint t' ht' (Finset.mem_of_mem_erase hmem)
      · exact h
  | _ =>
      simp only [step, stepTask]
      split
      · exact ⟨h.holder, h.disjoint⟩
      · exact h

theorem apart_step {s : Threads τ} (h : s.Apart) (sec : Section τ) : (s.step sec).Apart := by
  cases sec with
  | task sec => exact apart_stepTask h sec
  | announceShutdown t reason =>
      simp only [step]
      split
      · next hidle =>
          refine ⟨h.holder, ?_⟩
          intro t' ht'
          rcases Finset.mem_insert.mp ht' with rfl | ht'
          · exact hidle.2.2.2.2
          · exact h.disjoint t' ht'
      · exact h
  | sendSignal t =>
      simp only [step]
      split
      · refine ⟨fun t' ht' => Finset.mem_insert_of_mem (h.holder t' ht'), ?_⟩
        intro t' ht' hmem
        obtain ⟨hne, hwaiting⟩ := Finset.mem_erase.mp ht'
        rcases Finset.mem_insert.mp hmem with rfl | hmem
        · exact hne rfl
        · exact h.disjoint t' hwaiting hmem
      · exact h
  | _ => exact h.of_same (sameShutdown_step s rfl)

theorem counted_stepTask {s : Threads τ} (h : s.Counted) (hapart : s.Apart)
    (sec : TaskSection τ) : (s.step (.task sec)).Counted := by
  have hevents := h.events
  have hsignals := h.signals
  have htasks := h.tasks
  cases sec with
  | startTask t =>
      simp only [step, stepTask]
      split
      · refine ⟨hevents, hsignals, h.room, ?_⟩
        have hcard := Finset.card_insert_le s.spawned s.running
        change s.received + (insert s.spawned s.running).card ≤ s.spawned + 1
        omega
      · exact h
  | pushHandle t => exact h.of_same (sameShutdown_step s rfl)
  | endTask id =>
      refine ⟨hevents, hsignals, h.room, ?_⟩
      exact (Nat.add_le_add_left (Finset.card_erase_le) _).trans htasks
  | receiveSignal id =>
      simp only [step, stepTask]
      split
      · next hreceive =>
          have hcard := Finset.card_erase_add_one hreceive.1
          refine ⟨hevents, ?_, ?_, ?_⟩
          · change s.returned + s.joining.card = s.runtime.signals - 1 + (s.received + 1)
            omega
          · exact (Nat.sub_le _ _).trans h.room
          · change s.received + 1 + (s.running.erase id).card ≤ s.spawned
            omega
      · exact h
  | lockHandles t =>
      simp only [step, stepTask]
      split
      · exact ⟨hevents, hsignals, h.room, htasks⟩
      · exact h
  | joinTask t => exact h.of_same (sameShutdown_step s rfl)
  | completeShutdown t =>
      simp only [step, stepTask]
      split
      · next hdone =>
          have hcard := Finset.card_erase_add_one (hapart.holder t hdone.1)
          refine ⟨?_, ?_, h.room, htasks⟩
          · change s.runtime.events.countP _ =
              s.returned + 1 + (s.joining.erase t).card + s.waiting.card
            omega
          · change s.returned + 1 + (s.joining.erase t).card = s.runtime.signals + s.received
            omega
      · exact h

theorem counted_step {s : Threads τ} (h : s.Counted) (hapart : s.Apart) (sec : Section τ) :
    (s.step sec).Counted := by
  cases sec with
  | task sec => exact counted_stepTask h hapart sec
  | announceShutdown t reason =>
      simp only [step]
      split
      · next hidle =>
          refine ⟨?_, h.signals, h.room, h.tasks⟩
          rw [NodeRuntime.emit, List.countP_cons_of_pos rfl, h.events,
            Finset.card_insert_of_notMem hidle.2.2.2.1, Nat.add_assoc]
      · exact h
  | sendSignal t =>
      simp only [step]
      split
      · next hsend =>
          have hevents := h.events
          have hsignals := h.signals
          have hwaiting := Finset.card_erase_add_one hsend.1
          have hjoining := Finset.card_insert_of_notMem (hapart.disjoint t hsend.1)
          refine ⟨?_, ?_, hsend.2, h.tasks⟩
          · change s.runtime.events.countP _ =
              s.returned + (insert t s.joining).card + (s.waiting.erase t).card
            omega
          · change s.returned + (insert t s.joining).card = s.runtime.signals + 1 + s.received
            omega
      · exact h
  | _ => exact h.of_same (sameShutdown_step s rfl)

theorem counted_run (config : NodeConfig) (nodeId : Bytes 20) (sections : List (Section τ)) :
    (Runs.run step (new config nodeId) sections).Counted := by
  have hboth : (Runs.run step (new config nodeId) sections).Counted ∧
      (Runs.run step (new config nodeId) sections).Apart := by
    apply Runs.invariant (P := fun s : Threads τ => s.Counted ∧ s.Apart)
    · refine ⟨⟨rfl, rfl, Nat.zero_le 1, Nat.le_refl 0⟩, ?_, ?_⟩
      · intro t ht
        cases ht
      · exact fun t ht => absurd ht (Finset.notMem_empty t)
    · intro x _ h
      exact ⟨counted_step h.1 h.2 x.2, apart_step h.2 x.2⟩
  exact hboth.1

/-! ### Runs without tasks -/

theorem spawned_step (s : Threads τ) {sec : Section τ} (h : ∀ t, sec ≠ .task (.startTask t)) :
    (s.step sec).spawned = s.spawned := by
  cases sec with
  | task sec =>
      cases sec with
      | startTask t => exact absurd rfl (h t)
      | pushHandle t => exact (sameShutdown_step s rfl).spawned
      | joinTask t => exact (sameShutdown_step s rfl).spawned
      | endTask id => rfl
      | _ =>
          simp only [step, stepTask]
          split
          · rfl
          · rfl
  | announceShutdown t reason =>
      simp only [step]
      split
      · rfl
      · rfl
  | sendSignal t =>
      simp only [step]
      split
      · rfl
      · rfl
  | _ => exact (sameShutdown_step s rfl).spawned

theorem spawned_run {config : NodeConfig} {nodeId : Bytes 20} {sections : List (Section τ)}
    (h : ∀ t, .task (.startTask t) ∉ sections) :
    (Runs.run step (new config nodeId) sections).spawned = 0 := by
  apply Runs.invariant (P := fun s : Threads τ => s.spawned = 0) rfl
  intro x hx hzero
  obtain ⟨pre, post, hsections, _⟩ := Runs.mem_trace_iff.mp hx
  rw [spawned_step, hzero]
  intro t ht
  apply h t
  rw [hsections, ht]
  simp

/-- Without tasks nothing is taken out of the channel. -/
theorem noTask_run {config : NodeConfig} {nodeId : Bytes 20} {sections : List (Section τ)}
    (h : ∀ t, .task (.startTask t) ∉ sections) :
    (Runs.run step (new config nodeId) sections).running = ∅ ∧
      (Runs.run step (new config nodeId) sections).returned +
          (Runs.run step (new config nodeId) sections).joining.card =
        (Runs.run step (new config nodeId) sections).runtime.signals := by
  have hcounted := counted_run (τ := τ) config nodeId sections
  have hspawned : (Runs.run step (new config nodeId) sections).spawned = 0 := spawned_run h
  have hsignals := hcounted.signals
  have htasks := hcounted.tasks
  constructor
  · apply Finset.card_eq_zero.mp
    omega
  · omega

/-- While the channel is full and no task runs, no thread gets past the channel. -/
theorem waiting_step {s : Threads τ} (h : s.runtime.signals = NodeRuntime.capacity)
    (hrunning : s.running = ∅) (sec : Section τ) :
    (s.step sec).runtime.signals = NodeRuntime.capacity ∧
      s.waiting ⊆ (s.step sec).waiting := by
  have hkeep : ∀ {s'}, SameShutdown s s' →
      s'.runtime.signals = NodeRuntime.capacity ∧ s.waiting ⊆ s'.waiting := by
    intro s' hsame
    exact ⟨hsame.signals.trans h, hsame.waiting.superset⟩
  cases sec with
  | announceShutdown t reason =>
      simp only [step]
      split
      · exact ⟨h, Finset.subset_insert t s.waiting⟩
      · exact hkeep (.refl s)
  | sendSignal t =>
      have hfull : ¬ (t ∈ s.waiting ∧ s.runtime.signals < NodeRuntime.capacity) := by
        rw [h]
        exact fun hsend => Nat.lt_irrefl _ hsend.2
      simp only [step, if_neg hfull]
      exact hkeep (.refl s)
  | task sec =>
      cases sec with
      | pushHandle t => exact hkeep (sameShutdown_step s rfl)
      | joinTask t => exact hkeep (sameShutdown_step s rfl)
      | receiveSignal id =>
          have hnone : ¬ (id ∈ s.running ∧ 0 < s.runtime.signals) := by
            rw [hrunning]
            exact fun hreceive => absurd hreceive.1 (Finset.notMem_empty id)
          simp only [step, stepTask, if_neg hnone]
          exact hkeep (.refl s)
      | endTask id => exact ⟨h, Finset.Subset.refl _⟩
      | _ =>
          simp only [step, stepTask]
          split
          · exact ⟨h, Finset.Subset.refl _⟩
          · exact hkeep (.refl s)
  | _ => exact hkeep (sameShutdown_step s rfl)

theorem waiting_run {config : NodeConfig} {nodeId : Bytes 20} {pre mid : List (Section τ)}
    (hspawn : ∀ t, .task (.startTask t) ∉ pre ++ mid)
    (hreturned : (Runs.run step (new config nodeId) pre).returned = 1) :
    (Runs.run step (new config nodeId) pre).waiting ⊆
      (Runs.run step (new config nodeId) (pre ++ mid)).waiting := by
  have hfull : (Runs.run step (new config nodeId) pre).runtime.signals =
      NodeRuntime.capacity := by
    have hsignals : (Runs.run step (new config nodeId) pre).returned +
          (Runs.run step (new config nodeId) pre).joining.card =
        (Runs.run step (new config nodeId) pre).runtime.signals :=
      (noTask_run fun t ht => hspawn t (List.mem_append_left mid ht)).2
    have hroom := (counted_run (τ := τ) config nodeId pre).room
    rw [NodeRuntime.capacity] at hroom ⊢
    omega
  rw [Runs.run_append]
  have hrest : (Runs.run step (Runs.run step (new config nodeId) pre) mid).runtime.signals =
      NodeRuntime.capacity ∧ (Runs.run step (new config nodeId) pre).waiting ⊆
        (Runs.run step (Runs.run step (new config nodeId) pre) mid).waiting := by
    apply Runs.invariant (P := fun s : Threads τ =>
      s.runtime.signals = NodeRuntime.capacity ∧
        (Runs.run step (new config nodeId) pre).waiting ⊆ s.waiting)
    · exact ⟨hfull, Finset.Subset.refl _⟩
    · intro x hx h
      obtain ⟨before, after, rfl, hstate⟩ := Runs.mem_trace_iff.mp hx
      have hrunning : x.1.running = ∅ := by
        rw [hstate, ← Runs.run_append]
        refine (noTask_run fun t ht => hspawn t ?_).1
        rw [← List.append_assoc]
        exact List.mem_append_left _ ht
      obtain ⟨hsignals, hwaiting⟩ := waiting_step h.1 hrunning x.2
      exact ⟨hsignals, h.2.trans hwaiting⟩
  exact hrest.2

/-- In every interleaving the announced calls of `shutdown` have returned, wait for tasks or
wait for the channel, each of their signals is in the channel or was taken by one task, and
the channel holds one. When no task is spawned, at most one call has returned, and after it
those that wait for the channel do so for the rest of the run. -/
theorem shutdown_once (config : NodeConfig) (nodeId : Bytes 20) (sections : List (Section τ)) :
    Runs.Always step
        (fun s =>
          s.runtime.events.countP NodeEvent.isShuttingDown =
              s.returned + s.joining.card + s.waiting.card ∧
            s.returned + s.joining.card = s.runtime.signals + s.received ∧
            s.runtime.signals ≤ 1 ∧ s.received ≤ s.spawned)
        (new config nodeId) sections ∧
      ((∀ t, .task (.startTask t) ∉ sections) →
        Runs.Always step (fun s => s.returned ≤ 1) (new config nodeId) sections ∧
          Runs.Along step (fun s s' => s.returned = 1 → s.waiting ⊆ s'.waiting)
            (new config nodeId) sections) := by
  constructor
  · intro pre post _
    have hcounted := counted_run (τ := τ) config nodeId pre
    exact ⟨hcounted.events, hcounted.signals, hcounted.room,
      (Nat.le_add_right _ _).trans hcounted.tasks⟩
  · intro hspawn
    constructor
    · rintro pre post rfl
      have hsignals : (Runs.run step (new config nodeId) pre).returned +
            (Runs.run step (new config nodeId) pre).joining.card =
          (Runs.run step (new config nodeId) pre).runtime.signals :=
        (noTask_run fun t ht => hspawn t (List.mem_append_left post ht)).2
      have hroom := (counted_run (τ := τ) config nodeId pre).room
      rw [NodeRuntime.capacity] at hroom
      omega
    · rintro pre mid post rfl hreturned
      exact waiting_run (fun t ht => hspawn t (List.mem_append_left post ht)) hreturned

/-- A call of `shutdown` that returns, and a second one. -/
def twoShutdowns : List (Section Bool) :=
  [.announceShutdown false "upgrade", .sendSignal false, .task (.lockHandles false),
    .task (.completeShutdown false), .announceShutdown true "upgrade", .sendSignal true]

/-- The second call still waits for the channel, and does so whatever follows. -/
theorem twoShutdowns_waits :
    (∀ t, .task (.startTask t) ∉ twoShutdowns) ∧
      (Runs.run step (new ⟨none⟩ (.replicate 20 0)) twoShutdowns).returned = 1 ∧
      (Runs.run step (new ⟨none⟩ (.replicate 20 0)) twoShutdowns).waiting = {true} ∧
      ∀ rest : List (Section Bool), (∀ t, .task (.startTask t) ∉ rest) →
        true ∈ (Runs.run step (new ⟨none⟩ (.replicate 20 0)) (twoShutdowns ++ rest)).waiting := by
  have hspawn : ∀ t, .task (.startTask t) ∉ twoShutdowns := by
    intro t
    simp [twoShutdowns]
  have hreturned : (Runs.run step (new ⟨none⟩ (.replicate 20 0)) twoShutdowns).returned = 1 := by
    decide
  have hwaiting : (Runs.run step (new ⟨none⟩ (.replicate 20 0)) twoShutdowns).waiting = {true} := by
    decide
  refine ⟨hspawn, hreturned, hwaiting, ?_⟩
  intro rest hrest
  have hboth : ∀ t, .task (.startTask t) ∉ twoShutdowns ++ rest := by
    intro t ht
    rcases List.mem_append.mp ht with ht | ht
    · exact hspawn t ht
    · exact hrest t ht
  have halong := ((shutdown_once ⟨none⟩ (.replicate 20 0) (twoShutdowns ++ rest)).2 hboth).2
  apply halong twoShutdowns rest [] (List.append_nil _).symm hreturned
  rw [hwaiting]
  exact Finset.mem_singleton_self true

end Threads

end Node

end Crates

end CryptoCoin
