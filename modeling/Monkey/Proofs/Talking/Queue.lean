/-
The queue of a session, over any calls that add programs and run what is queued.  A program that is
accepted is evaluated once, waits, or was replaced by one accepted under the same line number while
it waited.  So programs are evaluated once each and in their order just if none is replaced.
-/
import Mathlib.Data.List.Basic
import Monkey.Proofs.Talking.Refinement

namespace Monkey.Session

open EStateM (Result)

/-! ### What is accepted and evaluated -/

/-- The program of a source text, which waits under a line number, if it parses without errors. -/
def accepted? (source : String) (lineNumber : Int) : Option Pending :=
  match parse source with
  | .done program parser _ =>
      if parser.diagnostics.isEmpty then some ⟨lineNumber, source, program⟩ else none
  | .failed .. => none

/-- The machine once all that it shows has been shown. -/
def drained (machine : Machine) : Machine :=
  { machine with events := #[] }

/-- Programs are evaluated one after the other, and each has a result that is no error. -/
inductive Evaluates (depth : Nat) : Machine → List Pending → List Value → Machine → Prop
  | nil (machine : Machine) : Evaluates depth machine [] [] machine
  | cons {machine mid after : Machine} {pending : Pending} {rest : List Pending} {result : Value}
      {results : List Value}
      (heval : pending.program.eval depth rootFrame machine = .ok result mid)
      (herror : result.isError = false) (hrest : Evaluates depth (drained mid) rest results after) :
      Evaluates depth machine (pending :: rest) (result :: results) after

/-- The evaluation of a program ends with an error, or is stopped by a fault. -/
inductive StopsAt (depth : Nat) (pending : Pending) (machine : Machine) : Stop → Machine → Prop
  | error {after : Machine} {message : String} {token : Option Token} {identity : Option Nat}
      {notice : Notice}
      (heval : pending.program.eval depth rootFrame machine =
        .ok (.error message token identity) after) (hmessage : notice.message = message) :
      StopsAt depth pending machine (.notice notice) (drained after)
  | fault {after : Machine} {fault : Fault}
      (heval : pending.program.eval depth rootFrame machine = .error fault after) :
      StopsAt depth pending machine (.fault fault) (drained after)

/-- The programs that are evaluated in a run over a queue: all up to the first without a result. -/
def evaluated (depth : Nat) (machine : Machine) : List Pending → List Pending
  | [] => []
  | pending :: rest => pending ::
      match pending.program.eval depth rootFrame machine with
      | .ok result after => if result.isError then [] else evaluated depth (drained after) rest
      | .error .. => []

/-- The session that is left where an action ends or is stopped. -/
def leftBy : Result Stop Session Unit → Session
  | .ok _ after | .error _ after => after

/-- What a run makes of a session.  Either every program that waits is evaluated and has its result
kept, or one stops the run: those before it have their results kept, and those behind it wait. -/
inductive Ran (depth : Nat) (session : Session) : Result Stop Session Unit → Prop
  | completed {results : List Value} {after : Session}
      (hruns : Evaluates depth session.machine session.queue results after.machine)
      (hqueue : after.queue = []) (hresults : after.results = session.results ++ results) :
      Ran depth session (.ok () after)
  | stopped {before later : List Pending} {pending : Pending} {results : List Value}
      {mid : Machine} {stop : Stop} {after : Session}
      (hsplit : session.queue = before ++ pending :: later)
      (hruns : Evaluates depth session.machine before results mid)
      (hstops : StopsAt depth pending mid stop after.machine) (hqueue : after.queue = later)
      (hresults : after.results = session.results ++ results) :
      Ran depth session (.error stop after)

/-- What adding makes of a session: a program that is accepted is queued, and otherwise the queue is
as before. -/
inductive Added (session : Session) : Option Pending → Result Stop Session Unit → Prop
  | accepted {pending : Pending} {after : Session} (hmachine : after.machine = session.machine)
      (hqueue : after.queue = enqueue pending session.queue)
      (hresults : after.results = session.results) : Added session (some pending) (.ok () after)
  | refused {stop : Stop} {after : Session} (hmachine : after.machine = session.machine)
      (hqueue : after.queue = session.queue) (hresults : after.results = session.results) :
      Added session none (.error stop after)

/-! ### Adding -/

section

variable {session : Session}

/-- A notice stops the session, and changes no more than its reporter. -/
theorem fail_eq (source : String) (lineNumber : Int) (token : Option Token) (message : String)
    (messages : List String) (session : Session) :
    ∃ notice reporter, notice.message = message ∧
      @fail Unit source lineNumber token message messages session =
        .error (.notice notice) { session with reporter := reporter } := by
  cases token with
  | none => exact ⟨_, session.reporter, rfl, rfl⟩
  | some token => exact ⟨_, _, rfl, rfl⟩

theorem added (source : String) (lineNumber : Int) (session : Session) :
    Added session (accepted? source lineNumber) (add source lineNumber session) := by
  unfold accepted? add
  cases parse source with
  | failed fault parser => exact .refused rfl rfl rfl
  | done program parser _ =>
      cases hdiagnostics : parser.diagnostics with
      | cons first rest =>
          obtain ⟨notice, reporter, -, hfail⟩ := fail_eq source lineNumber (some first.token)
            first.message ((first :: rest).map Diagnostic.message) session
          simp only [hdiagnostics, hfail]
          exact .refused rfl rfl rfl
      | nil =>
          obtain ⟨reporter, path, showTree, machine, queue, results⟩ := session
          simp only [hdiagnostics]
          cases showTree <;> exact .accepted rfl rfl rfl

/-! ### Running -/

theorem warnAt_ok (style : Style) (pending : Pending) (message : String) (token : Option Token)
    (session : Session) : ∃ reporter, warnAt style pending message token session =
      .ok () { session with reporter := reporter } := by
  cases token <;> exact ⟨_, rfl⟩

/-- Showing what a program let be seen changes no more than the reporter. -/
theorem replay_ok (style : Style) (pending : Pending) (events : List Event) (session : Session) :
    ∃ reporter, replay style pending events session =
      .ok () { session with reporter := reporter } := by
  induction events generalizing session with
  | nil => exact ⟨session.reporter, rfl⟩
  | cons event rest ih =>
      cases event with
      | wrote line => exact ih { session with reporter := session.reporter.printLine line }
      | warned message token =>
          obtain ⟨shown, hwarn⟩ := warnAt_ok style pending message token session
          obtain ⟨reporter, hreplay⟩ := ih { session with reporter := shown }
          refine ⟨reporter, ?_⟩
          simp only [replay, bind, EStateM.bind, hwarn, hreplay]

/-- What the run of one program makes of a session: its result is kept, or it stops. -/
inductive RanOne (depth : Nat) (pending : Pending) (session : Session) :
    Result Stop Session Unit → Prop
  | result {result : Value} {mid : Machine} {after : Session}
      (heval : pending.program.eval depth rootFrame session.machine = .ok result mid)
      (herror : result.isError = false) (hmachine : after.machine = drained mid)
      (hqueue : after.queue = session.queue)
      (hresults : after.results = session.results ++ [result]) :
      RanOne depth pending session (.ok () after)
  | stop {stop : Stop} {after : Session}
      (hstops : StopsAt depth pending session.machine stop after.machine)
      (hqueue : after.queue = session.queue) (hresults : after.results = session.results) :
      RanOne depth pending session (.error stop after)

theorem ranOne (host : Host) (pending : Pending) (session : Session) :
    RanOne host.depth pending session (runProgram host pending session) := by
  rw [runProgram_eq]
  have hreplay (machine : Machine) := replay_ok host.style pending machine.events.toList
    { session with machine := { machine with events := #[] } }
  cases heval : pending.program.eval host.depth rootFrame session.machine with
  | error fault machine =>
      obtain ⟨reporter, hshown⟩ := hreplay machine
      simp only [EStateM.bind, hshown]
      exact .stop (.fault heval) rfl rfl
  | ok result machine =>
      obtain ⟨reporter, hshown⟩ := hreplay machine
      simp only [EStateM.bind, hshown]
      cases result with
      | error message token identity =>
          obtain ⟨notice, shown, hmessage, hfail⟩ := fail_eq pending.source pending.lineNumber
            token message [] { session with
              machine := { machine with events := #[] }, reporter := reporter }
          simp only [finish, hfail]
          exact .stop (.error heval hmessage) rfl rfl
      | _ => exact .result heval rfl rfl rfl rfl

/-- By induction on the queue: each program leaves it before it is run. -/
theorem ran_runAll (host : Host) (queue : List Pending) (session : Session)
    (h : session.queue = queue) : Ran host.depth session (runAll host queue session) := by
  induction queue generalizing session with
  | nil => exact .completed (h ▸ .nil session.machine) h (List.append_nil _).symm
  | cons pending rest ih =>
      have hstep : runAll host (pending :: rest) session =
          EStateM.bind (runProgram host pending) (fun _ => runAll host rest)
            { session with queue := rest } :=
        rfl
      have hran := ranOne host pending { session with queue := rest }
      rw [hstep, EStateM.bind]
      generalize runProgram host pending { session with queue := rest } = result at hran ⊢
      cases hran with
      | stop hstops hqueue hresults =>
          have hsplit : session.queue = [] ++ pending :: rest := h
          exact .stopped hsplit (.nil _) hstops hqueue (hresults.trans (List.append_nil _).symm)
      | @result result mid after heval herror hmachine hqueue hresults =>
          have hqueue : after.queue = rest := hqueue
          have hran := ih after hqueue
          simp only
          generalize runAll host rest after = ended at hran ⊢
          cases hran with
          | @completed results last hruns hempty hmore =>
              rw [hqueue, hmachine] at hruns
              have hall :
                  Evaluates host.depth session.machine session.queue (result :: results)
                    last.machine :=
                h ▸ .cons heval herror hruns
              refine .completed hall hempty ?_
              rw [hmore, hresults, List.append_assoc]
              rfl
          | @stopped before later next results _ stop last hsplit hruns hstops hleft hmore =>
              rw [hmachine] at hruns
              have hsplit : session.queue = (pending :: before) ++ next :: later := by
                rw [h, ← hqueue, hsplit]
                rfl
              refine .stopped hsplit (.cons heval herror hruns) hstops hleft ?_
              rw [hmore, hresults, List.append_assoc]
              rfl

theorem ran (host : Host) (session : Session) : Ran host.depth session (run host session) :=
  ran_runAll host session.queue session rfl

theorem Evaluates.evaluated {depth : Nat} {machine after : Machine} {done : List Pending}
    {results : List Value} (h : Evaluates depth machine done results after)
    (later : List Pending) : Session.evaluated depth machine (done ++ later) =
      done ++ Session.evaluated depth after later := by
  induction h with
  | nil machine => rfl
  | cons heval herror _ ih =>
      simp only [List.cons_append, Session.evaluated, heval, herror, Bool.false_eq_true, if_false,
        ih]

theorem StopsAt.evaluated {depth : Nat} {machine after : Machine} {pending : Pending} {stop : Stop}
    (h : StopsAt depth pending machine stop after) (later : List Pending) :
    Session.evaluated depth machine (pending :: later) = [pending] := by
  cases h with
  | error heval _ => simp only [Session.evaluated, heval, Value.isError, if_true]
  | fault heval => simp only [Session.evaluated, heval]

end

/-! ### Calls -/

inductive Call where
  | add (source : String) (lineNumber : Int)
  | run

variable (host : Host)

namespace Call

def action : Call → SessionAction Unit
  | .add source lineNumber => Session.add source lineNumber
  | .run => Session.run host

def leaves (call : Call) (session : Session) : Session :=
  leftBy (call.action host session)

def accepted? : Call → Option Pending
  | .add source lineNumber => Session.accepted? source lineNumber
  | .run => none

def evaluated (session : Session) : Call → List Pending
  | .add .. => []
  | .run => Session.evaluated host.depth session.machine session.queue

/-- The program that waits under the line number of the one accepted, and has to give its place. -/
def replaced? (session : Session) (call : Call) : Option Pending :=
  call.accepted?.bind fun pending =>
    session.queue.find? fun waiting => waiting.lineNumber = pending.lineNumber

end Call

def leavesAll (session : Session) (calls : List Call) : Session :=
  calls.foldl (fun session call => call.leaves host session) session

/-- The programs that calls evaluate, in order and as often as they do. -/
def log (session : Session) : List Call → List Pending
  | [] => []
  | call :: rest => call.evaluated host session ++ log (call.leaves host session) rest

def replaced (session : Session) : List Call → List Pending
  | [] => []
  | call :: rest => (call.replaced? session).toList ++ replaced (call.leaves host session) rest

section

variable {session : Session}

theorem enqueue_of_find?_none {pending : Pending} {queue : List Pending}
    (h : (queue.find? fun waiting => waiting.lineNumber = pending.lineNumber) = none) :
    enqueue pending queue = queue ++ [pending] := by
  induction queue with
  | nil => rfl
  | cons first rest ih =>
      rw [List.find?_cons] at h
      by_cases hsame : first.lineNumber = pending.lineNumber
      · simp only [hsame, decide_true] at h
        cases h
      · simp only [hsame, decide_false] at h
        rw [enqueue, if_neg hsame, ih h, List.cons_append]

/-- The one that is accepted comes in, and the one that it replaces goes. -/
theorem enqueue_perm (pending : Pending) (queue : List Pending) :
    (enqueue pending queue ++
      (queue.find? fun waiting => waiting.lineNumber = pending.lineNumber).toList).Perm
        (queue ++ [pending]) := by
  induction queue with
  | nil => exact .refl _
  | cons first rest ih =>
      rw [enqueue, List.find?_cons]
      by_cases hsame : first.lineNumber = pending.lineNumber
      · simp only [hsame, decide_true, if_true]
        have hfirst : (rest ++ [first]).Perm (first :: rest) :=
          List.perm_append_singleton first rest
        have hpending : (pending :: rest).Perm (rest ++ [pending]) :=
          (List.perm_append_singleton pending rest).symm
        exact (hfirst.cons pending).trans
          ((List.Perm.swap first pending rest).trans (hpending.cons first))
      · simp only [hsame, decide_false, if_false]
        exact ih.cons first

/-- A run takes from the front of the queue what it evaluates. -/
theorem Ran.evaluated_append {depth : Nat} {result : Result Stop Session Unit}
    (h : Ran depth session result) :
    evaluated depth session.machine session.queue ++ (leftBy result).queue = session.queue := by
  cases h with
  | completed hruns hqueue _ =>
      have hall := hruns.evaluated []
      rw [List.append_nil] at hall
      rw [hall, evaluated, leftBy, hqueue, List.append_nil, List.append_nil]
  | stopped hsplit hruns hstops hqueue _ =>
      rw [hsplit, hruns.evaluated, hstops.evaluated, leftBy, hqueue, List.append_assoc]
      rfl

theorem Added.queue {accepted : Option Pending} {result : Result Stop Session Unit}
    (h : Added session accepted result) :
    (leftBy result).queue = accepted.elim session.queue fun pending =>
      enqueue pending session.queue := by
  cases h with
  | accepted _ hqueue _ => exact hqueue
  | refused _ hqueue _ => exact hqueue

/-- What one call evaluates, leaves or replaces is what waited before it or is accepted. -/
theorem step_perm (call : Call) (session : Session) :
    (call.evaluated host session ++ (call.leaves host session).queue ++
      (call.replaced? session).toList).Perm (session.queue ++ call.accepted?.toList) := by
  cases call with
  | run =>
      show (evaluated host.depth session.machine session.queue ++
        (leftBy (run host session)).queue ++ []).Perm (session.queue ++ [])
      rw [(ran host session).evaluated_append]
  | add source lineNumber =>
      have hqueue : ((Call.add source lineNumber).leaves host session).queue = _ :=
        (added source lineNumber session).queue
      simp only [Call.evaluated, Call.replaced?, Call.accepted?, List.nil_append]
      rw [hqueue]
      cases accepted? source lineNumber with
      | none => exact .refl _
      | some pending => exact enqueue_perm pending session.queue

/-- If nothing is replaced, they are so in order. -/
theorem step_eq {call : Call} (h : call.replaced? session = none) :
    call.evaluated host session ++ (call.leaves host session).queue =
      session.queue ++ call.accepted?.toList := by
  cases call with
  | run =>
      show evaluated host.depth session.machine session.queue ++ (leftBy (run host session)).queue =
        session.queue ++ []
      rw [(ran host session).evaluated_append, List.append_nil]
  | add source lineNumber =>
      have hqueue : ((Call.add source lineNumber).leaves host session).queue = _ :=
        (added source lineNumber session).queue
      simp only [Call.evaluated, Call.replaced?, Call.accepted?, List.nil_append] at h ⊢
      rw [hqueue]
      cases haccepted : accepted? source lineNumber with
      | none => exact (List.append_nil _).symm
      | some pending =>
          rw [haccepted] at h
          exact enqueue_of_find?_none h

end

/-! ### Many calls -/

/-- The programs that calls have accepted. -/
def acceptedAll (calls : List Call) : List Pending :=
  calls.filterMap Call.accepted?

theorem acceptedAll_cons (call : Call) (rest : List Call) :
    acceptedAll (call :: rest) = call.accepted?.toList ++ acceptedAll rest := by
  simp only [acceptedAll, List.filterMap_eq_flatMap_toList, List.flatMap_cons]

/-- What becomes of programs: each one that waited or is accepted is evaluated once, waits in the
end, or was replaced. -/
theorem log_perm (session : Session) (calls : List Call) :
    (log host session calls ++ (leavesAll host session calls).queue ++
      replaced host session calls).Perm (session.queue ++ acceptedAll calls) := by
  induction calls generalizing session with
  | nil =>
      show (session.queue ++ []).Perm (session.queue ++ [])
      exact .refl _
  | cons call rest ih =>
      classical
      rw [List.perm_iff_count]
      intro pending
      have hstep := (step_perm host call session).count_eq pending
      have hrest := (ih (call.leaves host session)).count_eq pending
      have hleaves : leavesAll host session (call :: rest) =
          leavesAll host (call.leaves host session) rest := rfl
      rw [log, replaced, acceptedAll_cons, hleaves]
      simp only [List.count_append] at hstep hrest ⊢
      omega

theorem log_eq (session : Session) (calls : List Call) (h : replaced host session calls = []) :
    log host session calls ++ (leavesAll host session calls).queue =
      session.queue ++ acceptedAll calls := by
  induction calls generalizing session with
  | nil => exact (List.append_nil _).symm
  | cons call rest ih =>
      obtain ⟨hcall, hrest⟩ := List.append_eq_nil_iff.mp h
      calc log host session (call :: rest) ++ (leavesAll host session (call :: rest)).queue
        _ = call.evaluated host session ++ (log host (call.leaves host session) rest ++
            (leavesAll host (call.leaves host session) rest).queue) :=
          List.append_assoc ..
        _ = call.evaluated host session ++ (call.leaves host session).queue ++
            acceptedAll rest := by
          rw [ih (call.leaves host session) hrest, List.append_assoc]
        _ = session.queue ++ acceptedAll (call :: rest) := by
          rw [step_eq host (Option.toList_eq_nil_iff.mp hcall), acceptedAll_cons, List.append_assoc]

/-- Programs are evaluated and wait in their order, without one missing, just if none is
replaced. -/
theorem log_eq_iff (session : Session) (calls : List Call) :
    log host session calls ++ (leavesAll host session calls).queue =
        session.queue ++ acceptedAll calls ↔ replaced host session calls = [] := by
  refine ⟨fun h => ?_, log_eq host session calls⟩
  have hlength := (log_perm host session calls).length_eq
  rw [List.length_append, h] at hlength
  exact List.length_eq_zero_iff.mp (by omega)

theorem log_append (session : Session) (calls more : List Call) :
    log host session (calls ++ more) =
      log host session calls ++ log host (leavesAll host session calls) more := by
  induction calls generalizing session with
  | nil => rfl
  | cons call rest ih =>
      rw [List.cons_append, log, log, ih, List.append_assoc]
      rfl

/-- Runs evaluate all that waits, since each of them takes one program at least. -/
theorem log_runs (session : Session) {runs : Nat} (h : session.queue.length ≤ runs) :
    log host session (List.replicate runs .run) = session.queue := by
  induction runs generalizing session with
  | zero =>
      have hempty : session.queue = [] := List.length_eq_zero_iff.mp (Nat.le_zero.mp h)
      rw [hempty]
      rfl
  | succ runs ih =>
      have hsplit : evaluated host.depth session.machine session.queue ++
          (Call.run.leaves host session).queue = session.queue :=
        (ran host session).evaluated_append
      have hfewer : (Call.run.leaves host session).queue.length ≤ runs := by
        have hlength := congrArg List.length hsplit
        rw [List.length_append] at hlength
        cases hqueue : session.queue with
        | nil =>
            rw [hqueue, List.length_nil] at hlength
            omega
        | cons first rest =>
            rw [hqueue, evaluated, List.length_cons] at hlength
            rw [hqueue] at h
            simp only [List.length_cons] at h hlength
            omega
      rw [List.replicate_succ, log, ih (Call.run.leaves host session) hfewer]
      exact hsplit

/-- The queue of a session.  Adding queues a program just if it parses without errors; a run
evaluates programs from the front of the queue up to the first without a result, keeps the results
of the others in order, and leaves what is behind it.  Over any calls, each program that waited or
is accepted is evaluated once, still waits or was replaced; and these calls and enough runs evaluate
all of them in their order, just if none was replaced by one accepted under the same line number
while it waited. -/
theorem queue_loses_only_replaced (session : Session) (calls : List Call) :
    (∀ source lineNumber,
      Added session (accepted? source lineNumber) (add source lineNumber session)) ∧
    Ran host.depth session (run host session) ∧
    evaluated host.depth session.machine session.queue ++ (leftBy (run host session)).queue =
      session.queue ∧
    (log host session calls ++ (leavesAll host session calls).queue ++
      replaced host session calls).Perm (session.queue ++ acceptedAll calls) ∧
    (log host session calls ++ (leavesAll host session calls).queue =
        session.queue ++ acceptedAll calls ↔ replaced host session calls = []) ∧
    ∀ runs, (leavesAll host session calls).queue.length ≤ runs →
      (log host session (calls ++ List.replicate runs .run) = session.queue ++ acceptedAll calls ↔
        replaced host session calls = []) := by
  refine ⟨fun source lineNumber => added source lineNumber session, ran host session,
    (ran host session).evaluated_append, log_perm host session calls,
    log_eq_iff host session calls, ?_⟩
  intro runs hruns
  rw [log_append, log_runs host _ hruns]
  exact log_eq_iff host session calls

/-- An error stops the first run; what is behind it, and what is added later, is evaluated by the
runs that follow. -/
theorem queue_behind_error :
    let session := atRest false .start
    let calls : List Call := [.add "1" 1, .add "y" 2, .add "3" 3, .run, .add "4" 4]
    (leavesAll .standard session calls).queue.length ≤ 2 ∧
      log .standard session (calls ++ List.replicate 2 .run) = session.queue ++ acceptedAll calls ∧
      (acceptedAll calls).map Pending.source = ["1", "y", "3", "4"] := by
  intro session calls
  have hruns : (leavesAll .standard session calls).queue.length ≤ 2 := by decide +kernel
  have hreplaced : replaced .standard session calls = [] := List.isEmpty_iff.mp (by decide +kernel)
  obtain ⟨-, -, -, -, -, hall⟩ := queue_loses_only_replaced .standard session calls
  exact ⟨hruns, (hall 2 hruns).mpr hreplaced, by decide +kernel⟩

/-- Two programs are added under one line number and then run, and the first of them is never
evaluated: nothing waits any more. -/
theorem replacedProgram_lost :
    let session := atRest false .start
    let calls : List Call := [.add "1\n" 1, .add "2\n" 1, .run]
    (acceptedAll calls).map Pending.source = ["1\n", "2\n"] ∧
      (log .standard session calls).map Pending.source = ["2\n"] ∧
      (leavesAll .standard session calls).queue.length = 0 ∧
      (leavesAll .standard session calls).results.map Value.display = ["2"] := by
  decide +kernel

end Monkey.Session
