import OSN.Lib.Run
import OSN.Lib.CondVar
import OSN.Lib.Headcount

/-!
# Course registration

A course thread looks for a TA who has turns left and whom nobody holds, takes
one of his turns, draws a number of slots, signals that many students, and
holds the TA's lock until the tutorial is over.  When it finds none it ends the
course.  A student waits for a tutorial of each of his preferences in turn,
counts himself in, waits for the end of the tutorial, and stays or withdraws.

Each thread is a program counter and each event is one operation of one thread.
Sleeps are delays like any other, all threads may begin at any time, and what is
only printed is left out, with the names, `calibre` and `interest_quotient`.
Whether a student stays is a choice.
-/

namespace Courses

/-- A TA: his lab in the global list, and his place there. -/
structure Ta where
  lab : Nat
  ta : Nat
  deriving DecidableEq

structure Lab where
  taNum : Nat
  maxTurns : Nat

/-- A course.  Without slots `rand() % max_slots` has no value. -/
structure Course where
  maxSlots : Nat
  hasSlots : 0 < maxSlots
  /-- The ids of the labs its TAs are to come from. -/
  labList : List Int

namespace Course

/-- `num_labs`, the length of the course's `lab_list`. -/
def numLabs (c : Course) : Nat := c.labList.length

end Course

/-- What `main` reads, with what it does not set: `students_attending`, which
`malloc` leaves as it is.  (It does not set up `in_tut` and `in_tut_lock`
either, but they work as if it did.)  The id of a lab is its place in the
list. -/
structure Input where
  labs : List Lab
  courses : List Course
  /-- The three preferences of each student. -/
  students : List (Fin 3 → Fin courses.length)
  unsetAttending : Fin courses.length → Int

namespace Input

abbrev CourseId (inp : Input) := Fin inp.courses.length

abbrev StudentId (inp : Input) := Fin inp.students.length

def course (inp : Input) (c : inp.CourseId) : Course := inp.courses.get c

/-- The preference a student has come to. -/
def pref (inp : Input) (st : inp.StudentId) (i : Fin 3) : inp.CourseId := inp.students.get st i

/-- `ta_num` of a lab. -/
def taNum (inp : Input) (i : Nat) : Nat :=
  match inp.labs[i]? with
  | some lab => lab.taNum
  | none => 0

/-- `max_turns` of a TA's lab. -/
def maxTurns (inp : Input) (ta : Ta) : Nat :=
  match inp.labs[ta.lab]? with
  | some lab => lab.maxTurns
  | none => 0

end Input

/-- Where a course thread is. -/
inductive CourseAt where
  /-- Looks for a TA, at these two loop variables. -/
  | scan (i i1 : Nat)
  /-- Has locked the TA. -/
  | test (ta : Ta)
  /-- The TA has no turns left. -/
  | unlock (ta : Ta)
  /-- Has taken a turn of the TA and is about to draw `random_slots`. -/
  | draw (ta : Ta)
  | lockTut (ta : Ta) (slots : Nat)
  /-- Holds `tut_cond_lock` and has `left` signals to send. -/
  | signal (ta : Ta) (slots left : Nat)
  /-- In the tutorial, until it locks `in_tut_lock`. -/
  | tutorial (ta : Ta) (slots : Nat)
  | broadcast (ta : Ta) (slots : Nat)
  | unlockInTut (ta : Ta) (slots : Nat)
  /-- Is about to set `students_attending` to `0`. -/
  | reset (ta : Ta) (slots : Nat)
  /-- Is about to unlock the TA. -/
  | release (ta : Ta)
  /-- Is about to set `course_end`. -/
  | endCourse
  | lastBroadcast
  | exited
  deriving DecidableEq

/-- Where a student thread is, with the place of his preference. -/
inductive StudentAt where
  | sleep
  /-- Tests `course_end`. -/
  | test (i : Fin 3)
  /-- Waits on `tut_cond`. -/
  | tut (i : Fin 3) (w : Waiter Unit)
  /-- Tests `course_end` again. -/
  | testAgain (i : Fin 3)
  | lockCounter (i : Fin 3)
  | read (i : Fin 3)
  /-- Is about to write `attending + 1`. -/
  | write (i : Fin 3) (attending : Int)
  | unlockCounter (i : Fin 3)
  /-- Waits on `in_tut`. -/
  | inTut (i : Fin 3) (w : Waiter Unit)
  | choose (i : Fin 3)
  | exited
  deriving DecidableEq

/-- Who holds the mutex of a condition variable of a course. -/
inductive Holder (inp : Input) where
  | course
  | student (st : inp.StudentId)
  deriving DecidableEq

/-- The state of the program.  The last three fields are kept for the record:
the code does not have them. -/
structure State (inp : Input) where
  taLock : Ta → Option inp.CourseId
  turnsLeft : Ta → Int
  courseEnd : inp.CourseId → Bool
  attending : inp.CourseId → Int
  tutCondLock : inp.CourseId → Option (Holder inp)
  inTutLock : inp.CourseId → Option (Holder inp)
  counterLock : inp.CourseId → Option inp.StudentId
  course : inp.CourseId → CourseAt
  student : inp.StudentId → StudentAt
  /-- How many tutorials a course has begun. -/
  tutorials : inp.CourseId → Nat
  /-- The tutorial for which a student was last signalled. -/
  signalledFor : inp.StudentId → Nat
  /-- How many of the students signalled for the course's current tutorial have
  been allocated a seat. -/
  admitted : inp.CourseId → Nat

/-- One operation of one thread. -/
inductive Event (inp : Input) where
  | course (c : inp.CourseId)
  /-- The course draws `random_slots`. -/
  | draw (c : inp.CourseId) (slots : Nat)
  /-- The course signals, and these students are woken up. -/
  | signal (c : inp.CourseId) (woken : List inp.StudentId)
  | student (st : inp.StudentId)
  /-- The student stays in the course, or withdraws. -/
  | choose (st : inp.StudentId) (stays : Bool)
  /-- A student wakes up without a signal. -/
  | spurious (st : inp.StudentId)
  deriving DecidableEq

namespace State

variable {inp : Input}

def setCourse (s : State inp) (c : inp.CourseId) (at' : CourseAt) : State inp :=
  { s with course := Function.update s.course c at' }

def setStudent (s : State inp) (st : inp.StudentId) (at' : StudentAt) : State inp :=
  { s with student := Function.update s.student st at' }

/-- A student is blocked on `tut_cond` of a course. -/
def BlockedOnTut (s : State inp) (c : inp.CourseId) (st : inp.StudentId) : Prop :=
  match s.student st with
  | .tut i .blocked => inp.pref st i = c
  | _ => False

instance (s : State inp) (c : inp.CourseId) (st : inp.StudentId) :
    Decidable (s.BlockedOnTut c st) := by
  unfold BlockedOnTut
  split <;> infer_instance

/-- A student is blocked on `in_tut` of a course. -/
def BlockedOnInTut (s : State inp) (c : inp.CourseId) (st : inp.StudentId) : Prop :=
  match s.student st with
  | .inTut i .blocked => inp.pref st i = c
  | _ => False

instance (s : State inp) (c : inp.CourseId) (st : inp.StudentId) :
    Decidable (s.BlockedOnInTut c st) := by
  unfold BlockedOnInTut
  split <;> infer_instance

/-- Where a student is once his wait is over. -/
def wakeUp : StudentAt → StudentAt
  | .tut i .blocked => .tut i (.woken ())
  | .inTut i .blocked => .inTut i (.woken ())
  | other => other

/-- Wake up those students who satisfy `woken`. -/
def wake (s : State inp) (woken : inp.StudentId → Prop) [DecidablePred woken] : State inp :=
  { s with student := fun st => if woken st then wakeUp (s.student st) else s.student st }

/-- An operation of `course_thread`.  A lab outside the list is read from
memory that `main` did not set up: what comes then is undefined. -/
def courseThread (s : State inp) (c : inp.CourseId) : Option (State inp) :=
  match s.course c with
  | .scan i i1 =>
      if i < (inp.course c).numLabs then
        match inp.labs[i]? with
        | none => none
        | some lab =>
            if i1 < lab.taNum then
              if s.taLock ⟨i, i1⟩ = none then
                some
                  { s.setCourse c (.test ⟨i, i1⟩) with
                    taLock := Function.update s.taLock ⟨i, i1⟩ (some c) }
              else some (s.setCourse c (.scan i (i1 + 1)))
            else some (s.setCourse c (.scan (i + 1) 0))
      else some (s.setCourse c .endCourse)
  | .test ta =>
      if 0 < s.turnsLeft ta then
        some
          { s.setCourse c (.draw ta) with
            turnsLeft := Function.update s.turnsLeft ta (s.turnsLeft ta - 1) }
      else some (s.setCourse c (.unlock ta))
  | .unlock ta =>
      some
        { s.setCourse c (.scan ta.lab (ta.ta + 1)) with
          taLock := Function.update s.taLock ta none }
  | .draw _ => none
  | .lockTut ta slots =>
      if s.tutCondLock c = none then
        some
          { s.setCourse c (.signal ta slots slots) with
            tutCondLock := Function.update s.tutCondLock c (some .course) }
      else none
  | .signal ta slots 0 =>
      some
        { s.setCourse c (.tutorial ta slots) with
          tutCondLock := Function.update s.tutCondLock c none }
  | .signal _ _ (_ + 1) => none
  | .tutorial ta slots =>
      if s.inTutLock c = none then
        some
          { s.setCourse c (.broadcast ta slots) with
            inTutLock := Function.update s.inTutLock c (some .course) }
      else none
  | .broadcast ta slots => some ((s.setCourse c (.unlockInTut ta slots)).wake (s.BlockedOnInTut c))
  | .unlockInTut ta slots =>
      some
        { s.setCourse c (.reset ta slots) with
          inTutLock := Function.update s.inTutLock c none }
  | .reset ta _ =>
      some
        { s.setCourse c (.release ta) with
          attending := Function.update s.attending c 0 }
  | .release ta =>
      some
        { s.setCourse c (.scan 0 0) with
          taLock := Function.update s.taLock ta none }
  | .endCourse =>
      some
        { s.setCourse c .lastBroadcast with
          courseEnd := Function.update s.courseEnd c true }
  | .lastBroadcast => some ((s.setCourse c .exited).wake (s.BlockedOnTut c))
  | .exited => none

/-- The course draws `(rand() % max_slots) + 1`. -/
def draw (s : State inp) (c : inp.CourseId) (slots : Nat) : Option (State inp) :=
  match s.course c with
  | .draw ta =>
      if 1 ≤ slots ∧ slots ≤ (inp.course c).maxSlots then
        some
          { s.setCourse c (.lockTut ta slots) with
            tutorials := Function.update s.tutorials c (s.tutorials c + 1)
            admitted := Function.update s.admitted c 0 }
      else none
  | _ => none

/-- The course signals `tut_cond`. -/
def signal (wakeups : Wakeups) (s : State inp) (c : inp.CourseId) (woken : List inp.StudentId) :
    Option (State inp) :=
  match s.course c with
  | .signal ta slots (left + 1) =>
      if CondVar.MayWake wakeups (s.BlockedOnTut c) woken then
        some
          { (s.setCourse c (.signal ta slots left)).wake (· ∈ woken) with
            signalledFor := fun st =>
              if st ∈ woken then s.tutorials c else s.signalledFor st }
      else none
  | _ => none

/-- The next preference, or the end of the loop. -/
def nextPref (i : Fin 3) : StudentAt :=
  if h : i.val + 1 < 3 then .test ⟨i.val + 1, h⟩ else .exited

/-- An operation of `student_thread`. -/
def studentThread (s : State inp) (st : inp.StudentId) : Option (State inp) :=
  match s.student st with
  | .sleep => some (s.setStudent st (.test 0))
  | .test i =>
      some (s.setStudent st
        (if s.courseEnd (inp.pref st i) then nextPref i else .tut i .lock))
  | .tut i .lock =>
      if s.tutCondLock (inp.pref st i) = none then
        some
          { s.setStudent st (.tut i .wait) with
            tutCondLock := Function.update s.tutCondLock (inp.pref st i) (some (.student st)) }
      else none
  | .tut i .wait =>
      some
        { s.setStudent st (.tut i .blocked) with
          tutCondLock := Function.update s.tutCondLock (inp.pref st i) none }
  | .tut _ .blocked => none
  | .tut i (.woken r) =>
      if s.tutCondLock (inp.pref st i) = none then
        some
          { s.setStudent st (.tut i (.unlock r)) with
            tutCondLock := Function.update s.tutCondLock (inp.pref st i) (some (.student st)) }
      else none
  | .tut i (.unlock _) =>
      some
        { s.setStudent st (.testAgain i) with
          tutCondLock := Function.update s.tutCondLock (inp.pref st i) none }
  | .testAgain i =>
      some (s.setStudent st
        (if s.courseEnd (inp.pref st i) then nextPref i else .lockCounter i))
  | .lockCounter i =>
      if s.counterLock (inp.pref st i) = none then
        some
          { s.setStudent st (.read i) with
            counterLock := Function.update s.counterLock (inp.pref st i) (some st) }
      else none
  | .read i => some (s.setStudent st (.write i (s.attending (inp.pref st i))))
  | .write i attending =>
      let c := inp.pref st i
      some
        { s.setStudent st (.unlockCounter i) with
          attending := Function.update s.attending c (attending + 1)
          admitted :=
            if s.signalledFor st = s.tutorials c then
              Function.update s.admitted c (s.admitted c + 1)
            else s.admitted }
  | .unlockCounter i =>
      some
        { s.setStudent st (.inTut i .lock) with
          counterLock := Function.update s.counterLock (inp.pref st i) none }
  | .inTut i .lock =>
      if s.inTutLock (inp.pref st i) = none then
        some
          { s.setStudent st (.inTut i .wait) with
            inTutLock := Function.update s.inTutLock (inp.pref st i) (some (.student st)) }
      else none
  | .inTut i .wait =>
      some
        { s.setStudent st (.inTut i .blocked) with
          inTutLock := Function.update s.inTutLock (inp.pref st i) none }
  | .inTut _ .blocked => none
  | .inTut i (.woken r) =>
      if s.inTutLock (inp.pref st i) = none then
        some
          { s.setStudent st (.inTut i (.unlock r)) with
            inTutLock := Function.update s.inTutLock (inp.pref st i) (some (.student st)) }
      else none
  | .inTut i (.unlock _) =>
      some
        { s.setStudent st (.choose i) with
          inTutLock := Function.update s.inTutLock (inp.pref st i) none }
  | .choose _ => none
  | .exited => none

/-- `random_num < prob`, or not. -/
def choose (s : State inp) (st : inp.StudentId) (stays : Bool) : Option (State inp) :=
  match s.student st with
  | .choose i => some (s.setStudent st (if stays then .exited else nextPref i))
  | _ => none

/-- A student wakes up without a signal. -/
def spurious (wakeups : Wakeups) (s : State inp) (st : inp.StudentId) : Option (State inp) :=
  if wakeups = .posix ∧ wakeUp (s.student st) ≠ s.student st then some (s.wake (· = st)) else none

/-- A step. -/
def step (wakeups : Wakeups) (s : State inp) : Event inp → Option (State inp)
  | .course c => s.courseThread c
  | .draw c slots => s.draw c slots
  | .signal c woken => s.signal wakeups c woken
  | .student st => s.studentThread st
  | .choose st stays => s.choose st stays
  | .spurious st => s.spurious wakeups st

end State

/-- The state in which `main` starts the threads. -/
def start (inp : Input) : State inp where
  taLock := fun _ => none
  turnsLeft := fun ta => inp.maxTurns ta
  courseEnd := fun _ => false
  attending := inp.unsetAttending
  tutCondLock := fun _ => none
  inTutLock := fun _ => none
  counterLock := fun _ => none
  course := fun _ => .scan 0 0
  student := fun _ => .sleep
  tutorials := fun _ => 0
  signalledFor := fun _ => 0
  admitted := fun _ => 0

/-- The registration, with the wakeups to expect. -/
def registration (wakeups : Wakeups) (inp : Input) : Machine (State inp) (Event inp) where
  init s := s = start inp
  step := State.step wakeups

end Courses
