import Karac.Lib.Interleaving

/-! Console output under parallel regions: each branch's writes go to a capture of its own, which the region replays in
the branches' order once all are done. A thread that waits for its region runs whatever tasks the pool has. -/

namespace Karac.Runtime

inductive ConsoleStream
  | stdout
  | stderr
deriving DecidableEq

/-- The bytes of one write. -/
abbrev ConsoleWrite := ConsoleStream × List UInt8

/-! The capture. -/

structure Seg where
  len : ℕ
  stream : ConsoleStream

/-- A flat buffer and how it is cut into writes. -/
structure OutputCapture where
  data : List UInt8
  segs : List Seg
  fits : (segs.map Seg.len).sum = data.length

namespace OutputCapture

def new : OutputCapture := ⟨[], [], rfl⟩

def push (cap : OutputCapture) (w : ConsoleWrite) : OutputCapture where
  data := cap.data ++ w.2
  segs := cap.segs ++ [⟨w.2.length, w.1⟩]
  fits := by simp [cap.fits]

def replayFrom (data : List UInt8) : ℕ → List Seg → List ConsoleWrite
  | _, [] => []
  | off, seg :: segs => (seg.stream, (data.drop off).take seg.len) :: replayFrom data (off + seg.len) segs

/-- The writes in the order of the replay. -/
def replay (cap : OutputCapture) : List ConsoleWrite := replayFrom cap.data 0 cap.segs

theorem replayFrom_append {data more : List UInt8} {off : ℕ} {segs : List Seg}
    (h : off + (segs.map Seg.len).sum ≤ data.length) : replayFrom (data ++ more) off segs = replayFrom data off segs := by
  induction segs generalizing off with
  | nil => rfl
  | cons seg segs ih =>
    rw [List.map_cons, List.sum_cons] at h
    rw [replayFrom, replayFrom, ih (by omega), List.drop_append_of_le_length (by omega),
      List.take_append_of_le_length (by rw [List.length_drop]; omega)]

theorem replayFrom_concat (data : List UInt8) (off : ℕ) (segs : List Seg) (seg : Seg) :
    replayFrom data off (segs ++ [seg]) =
      replayFrom data off segs ++ [(seg.stream, (data.drop (off + (segs.map Seg.len).sum)).take seg.len)] := by
  induction segs generalizing off with
  | nil => rfl
  | cons first segs ih =>
    rw [List.cons_append, replayFrom, replayFrom, ih, List.map_cons, List.sum_cons, Nat.add_assoc]
    rfl

/-- A capture replays what was pushed, write by write. -/
theorem replay_pushes (cap : OutputCapture) (ws : List ConsoleWrite) : (ws.foldl push cap).replay = cap.replay ++ ws := by
  induction ws generalizing cap with
  | nil => rw [List.foldl_nil, List.append_nil]
  | cons w ws ih =>
    have hpush : (cap.push w).replay = cap.replay ++ [w] := by
      rw [replay, push, replayFrom_concat, replayFrom_append (by rw [Nat.zero_add, cap.fits]), Nat.zero_add, cap.fits,
        List.drop_left, List.take_length]
      rfl
    rw [List.foldl_cons, ih, hpush, List.append_assoc]
    rfl

end OutputCapture

/-! Programs. -/

/-- What the code of a branch does to the console: it writes, and it runs parallel regions, explicit or derived ones. -/
inductive ParAct
  | write (stream : ConsoleStream) (bytes : List UInt8)
  | par (auto : Bool) (branches : List (List ParAct))

/-! Regions, tasks and threads. -/

/-- The capture of a branch of a region, by its address. -/
structure CaptureKey where
  region : ℕ
  branch : ℕ
deriving DecidableEq

/-- A region, with the count of its call: the branches that are not done. A sequential region has no call. The compiler's
array of branches has a length of 32 bits, which the count has too. -/
structure Region where
  branches : List (List ParAct)
  captures : List OutputCapture
  remaining : Option ℕ

structure ParTask where
  key : CaptureKey
  body : List ParAct

/-- What the threads share: the pool's queue, the regions so far, and what has been written to the console itself. -/
structure Shared where
  queue : List ParTask
  regions : List Region
  console : List ConsoleWrite

/-- `karac_runtime_write_console` under a redirection. -/
def Shared.writeConsole (sh : Shared) (redirect : Option CaptureKey) (w : ConsoleWrite) : Shared :=
  match redirect with
  | none => { sh with console := sh.console ++ [w] }
  | some key =>
    { sh with
      regions := sh.regions.modify key.region fun region =>
        { region with captures := region.captures.modify key.branch (·.push w) } }

def Shared.capture (sh : Shared) (key : CaptureKey) : Option OutputCapture :=
  sh.regions[key.region]?.bind fun region => region.captures[key.branch]?

def Shared.remaining (sh : Shared) (region : ℕ) : Option ℕ := sh.regions[region]?.bind Region.remaining

def Shared.open (sh : Shared) (branches : List (List ParAct)) (remaining : Option ℕ) : Shared :=
  { sh with regions := sh.regions ++ [⟨branches, branches.map fun _ => .new, remaining⟩] }

/-- The end of `execute_task`. -/
def Shared.finish (sh : Shared) (region : ℕ) : Shared :=
  { sh with regions := sh.regions.modify region fun r => { r with remaining := r.remaining.map (· - 1) } }

/-- How far `par_join_wait` is: before the check of the count, before the look into the queue, before the check after an
empty queue, and blocked. -/
inductive JoinPhase
  | polling
  | helping
  | checking
  | waiting
deriving DecidableEq

/-- What is on a thread's stack. -/
inductive Frame
  /-- The end of the program. -/
  | main
  | body (acts : List ParAct)
  /-- The end of a task: the redirection before it is put back and its region's count goes down. -/
  | task (prev : Option CaptureKey) (key : CaptureKey)
  /-- The loop of `seq_par_run`, with the branches to come. -/
  | inline (prev : Option CaptureKey) (key : CaptureKey) (rest : List (List ParAct))
  | join (region : ℕ) (phase : JoinPhase)
  /-- The replay of a region's captures, with the writes to come of the one before `next`. -/
  | replay (pending : List ConsoleWrite) (region next : ℕ)

structure Thread where
  /-- `OUTPUT_REDIRECT` and `PAR_REDUCE_DEPTH`. -/
  redirect : Option CaptureKey
  depth : ℕ
  stack : List Frame

/-- The body of a task, under the guards. -/
def Thread.start (th : Thread) (task : ParTask) : Thread :=
  ⟨some task.key, th.depth + 1, .body task.body :: .task th.redirect task.key :: th.stack⟩

/-- Whether the target has threads, and the fork depth from which derived regions run inline. -/
structure ParConfig where
  threads : Bool
  maxForkDepth : ℕ

def ParConfig.runsInline (cfg : ParConfig) (auto : Bool) (depth : ℕ) : Bool :=
  !cfg.threads || (auto && decide (cfg.maxForkDepth ≤ depth))

def tasksOf (region : ℕ) (branches : List (List ParAct)) : List ParTask :=
  branches.zipIdx.map fun (body, i) => ⟨⟨region, i⟩, body⟩

/-- `karac_par_run` and `karac_par_run_auto`, with the actions after the region and the frames below. -/
def Thread.parRun (cfg : ParConfig) (th : Thread) (sh : Shared) (auto : Bool) (branches : List (List ParAct))
    (below : List Frame) : Thread × Shared :=
  let region := sh.regions.length
  match branches with
  | [] => ({ th with stack := below }, sh)
  | body :: rest =>
    if cfg.runsInline auto th.depth = true then
      (⟨some ⟨region, 0⟩, th.depth + 1, .body body :: .inline th.redirect ⟨region, 0⟩ rest :: below⟩, sh.open branches none)
    else
      ({ th with stack := .join region .polling :: below },
        { sh.open branches (some branches.length) with queue := sh.queue ++ tasksOf region branches })

/-- `par_join_wait`. -/
def Thread.joinWait (th : Thread) (sh : Shared) (region : ℕ) (below : List Frame) : JoinPhase → Option (Thread × Shared)
  | .polling => (sh.remaining region).map fun remaining =>
    if remaining = 0 then ({ th with stack := .replay [] region 0 :: below }, sh)
    else ({ th with stack := .join region .helping :: below }, sh)
  | .helping =>
    match sh.queue with
    | task :: queue => some (({ th with stack := .join region .polling :: below }).start task, { sh with queue := queue })
    | [] => some ({ th with stack := .join region .checking :: below }, sh)
  | .checking => (sh.remaining region).map fun remaining =>
    if remaining = 0 then ({ th with stack := .replay [] region 0 :: below }, sh)
    else ({ th with stack := .join region .waiting :: below }, sh)
  | .waiting => (sh.remaining region).bind fun remaining =>
    if remaining = 0 then some ({ th with stack := .replay [] region 0 :: below }, sh) else none

/-- One step of a thread. A worker without a task takes the first of the queue. -/
def Thread.step (cfg : ParConfig) (th : Thread) (sh : Shared) : Option (Thread × Shared) :=
  match th.stack with
  | [] =>
    match sh.queue with
    | task :: queue => some (th.start task, { sh with queue := queue })
    | [] => none
  | .main :: _ => none
  | .body [] :: below => some ({ th with stack := below }, sh)
  | .body (.write stream bytes :: acts) :: below =>
    some ({ th with stack := .body acts :: below }, sh.writeConsole th.redirect (stream, bytes))
  | .body (.par auto branches :: acts) :: below => some (th.parRun cfg sh auto branches (.body acts :: below))
  | .task prev key :: below => some (⟨prev, th.depth - 1, below⟩, sh.finish key.region)
  | .inline prev key (body :: rest) :: below =>
    let next : CaptureKey := ⟨key.region, key.branch + 1⟩
    some (⟨some next, th.depth, .body body :: .inline prev next rest :: below⟩, sh)
  | .inline prev key [] :: below => some (⟨prev, th.depth - 1, .replay [] key.region 0 :: below⟩, sh)
  | .join region phase :: below => th.joinWait sh region below phase
  | .replay (w :: pending) region next :: below =>
    some ({ th with stack := .replay pending region next :: below }, sh.writeConsole th.redirect w)
  | .replay [] region next :: below =>
    match sh.capture ⟨region, next⟩ with
    | some cap => some ({ th with stack := .replay cap.replay region (next + 1) :: below }, sh)
    | none => some ({ th with stack := below }, sh)

structure ParState where
  threads : List Thread
  shared : Shared

/-- A thread's step, or the end of a bounded wait of a nested region. -/
inductive ParEvent
  | run (thread : ℕ)
  | wake (thread : ℕ)

def parStep (cfg : ParConfig) (s : ParState) : ParEvent → Option ParState
  | .run i => s.threads[i]?.bind fun th =>
    (th.step cfg s.shared).map fun next => ⟨s.threads.set i next.1, next.2⟩
  | .wake i => s.threads[i]?.bind fun th =>
    match th.stack with
    | .join region .waiting :: below => some { s with threads := s.threads.set i { th with stack := .join region .polling :: below } }
    | _ => none

/-- The main thread before the program, and the pool's workers. -/
def parInit (program : List ParAct) (workers : ℕ) : ParState :=
  ⟨⟨none, 0, [.body program, .main]⟩ :: List.replicate workers ⟨none, 0, []⟩, ⟨[], [], []⟩⟩

end Karac.Runtime
