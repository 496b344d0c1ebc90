import IgaArchive.Workspace
import Mathlib.Algebra.Ring.Nat
import Mathlib.Data.List.DropRight

/-!
Which bytes a progress line speaks of. Whatever a tracker is told to do and whatever its clock says, each byte it
counts belongs to one interval between two lines: the line at the end of the interval gives the rate of just
these bytes, and what lies behind the last line is what the tracker has counted and not yet reported.
-/

namespace IgaArchive.Tracker

inductive Operation where
  | init (size : UInt64)
  | add (count : UInt64)
  | entry (name : Bytes)
  | print (text : Bytes)
  | stop
  /-- A write through to a writer that says it has taken so many bytes. -/
  | write (taken : Int64)

namespace Operation

def restarts : Operation → Bool
  | .init _ => true
  | _ => false

def amount : Operation → Nat
  | .add count => count.toNat
  | .write taken => taken.toNatClampNeg
  | _ => 0

end Operation

def perform (tracker : Tracker) : Operation → Tracker
  | .init size => tracker.init size
  | .add count => tracker.add count
  | .entry name => tracker.entry name
  | .print text => tracker.print text
  | .stop => tracker.stop
  | .write taken => tracker.wrote taken

def performAll (tracker : Tracker) (operations : List Operation) : Tracker :=
  operations.foldl perform tracker

/-- A progress line: the tracker that prints it, once it has counted the bytes and read its clock, and the time
since the line before. -/
structure Report where
  tracker : Tracker
  elapsed : Int

namespace Report

/-- The bytes that the line gives the rate of. -/
def fresh (report : Report) : UInt64 :=
  report.tracker.processed - report.tracker.reported

def rate (report : Report) : UInt64 :=
  Fixed.toUInt64 (report.fresh.toFloat / atLeastAMillisecond (Clock.seconds report.elapsed))

def text (report : Report) : Bytes :=
  utf8 "Processed " ++ Amount.size report.tracker.processed ++ utf8 " of " ++
    Amount.size report.tracker.total ++ utf8 " (" ++ Fixed.tenths report.tracker.share ++
    utf8 "%) | Rate: " ++ Amount.rate report.rate ++ utf8 "\n"

theorem line_eq_text (report : Report) : report.tracker.line report.elapsed = report.text := rfl

end Report

/-- The line that it is time for, if any, now that some bytes have been counted. -/
def dueLine (tracker : Tracker) : Option Report :=
  let (now, clock) := tracker.clock.read
  let elapsed := Clock.between tracker.lastReport now
  let tracker := { tracker with clock }
  if elapsed < interval && tracker.share - tracker.reportedShare < 10 then none
  else some ⟨tracker, elapsed⟩

def lineOn (tracker : Tracker) (count : UInt64) : Option Report :=
  if count = 0 then none
  else
    let tracker := { tracker with processed := tracker.processed + count }
    if tracker.enabled then tracker.dueLine else none

def report? (tracker : Tracker) (operation : Operation) : Option Report :=
  tracker.lineOn operation.amount.toUInt64

/-- How counting moves a tracker: without a line the bytes are added to what is yet to be reported, and with one
all that has been counted is reported. -/
inductive Counts (before : Tracker) (count : UInt64) : Option Report → Tracker → Prop
  | quiet (after : Tracker) (processed : after.processed = before.processed + count)
      (reported : after.reported = before.reported) : Counts before count none after
  | line (report : Report) (after : Tracker)
      (told : report.tracker.processed = before.processed + count)
      (since : report.tracker.reported = before.reported)
      (processed : after.processed = report.tracker.processed)
      (reported : after.reported = report.tracker.processed) : Counts before count (some report) after

section Step

variable (tracker : Tracker)

theorem report_counts (count : UInt64) :
    Counts tracker count (dueLine { tracker with processed := tracker.processed + count })
      (Tracker.report { tracker with processed := tracker.processed + count }) := by
  rw [dueLine, Tracker.report]
  dsimp only
  split
  · exact .quiet _ rfl rfl
  · exact .line _ _ rfl rfl rfl rfl

theorem report_printed :
    tracker.report.printed = tracker.printed ++ (tracker.dueLine.map Report.text).getD [] := by
  rw [dueLine, Tracker.report]
  dsimp only
  split
  · exact (List.append_nil _).symm
  · rw [print, Report.line_eq_text ⟨_, _⟩]
    rfl

theorem add_counts (count : UInt64) : Counts tracker count (tracker.lineOn count) (tracker.add count) := by
  rw [lineOn, add]
  split
  · rename_i nothing
    exact .quiet _ (by rw [nothing, UInt64.add_zero]) rfl
  · dsimp only
    split
    · exact tracker.report_counts count
    · exact .quiet _ rfl rfl

theorem add_printed (count : UInt64) :
    (tracker.add count).printed = tracker.printed ++ ((tracker.lineOn count).map Report.text).getD [] := by
  rw [lineOn, add]
  split
  · exact (List.append_nil _).symm
  · dsimp only
    split
    · exact report_printed _
    · exact (List.append_nil _).symm

theorem wrote_eq_add (taken : Int64) : tracker.wrote taken = tracker.add taken.toNatClampNeg.toUInt64 := by
  rw [wrote]
  split
  · rename_i positive
    have same : taken.toUInt64 = taken.toNatClampNeg.toUInt64 := by
      have small := taken.toNatClampNeg_lt
      apply UInt64.toNat_inj.mp
      rw [Int64.toNat_toUInt64_of_le (Int64.le_of_lt positive), Nat.toUInt64_eq, UInt64.toNat_ofNat']
      omega
    rw [same]
  · rename_i nothing
    rw [Int64.toNatClampNeg_eq_zero_iff.mpr (Int64.not_lt.mp nothing)]
    rfl

variable {operation : Operation}

theorem perform_eq_add (counts : operation.amount ≠ 0) :
    tracker.perform operation = tracker.add operation.amount.toUInt64 := by
  cases operation with
  | add count => rw [Operation.amount, Nat.toUInt64_eq, UInt64.ofNat_toNat, perform]
  | write taken => exact tracker.wrote_eq_add taken
  | init size => exact absurd rfl counts
  | entry name => exact absurd rfl counts
  | print text => exact absurd rfl counts
  | stop => exact absurd rfl counts

theorem perform_printed (counts : operation.amount ≠ 0) :
    (tracker.perform operation).printed =
      tracker.printed ++ ((tracker.report? operation).map Report.text).getD [] := by
  rw [tracker.perform_eq_add counts]
  exact tracker.add_printed _

theorem perform_keeps (continues : operation.restarts = false) (nothing : operation.amount = 0) :
    (tracker.perform operation).processed = tracker.processed ∧
      (tracker.perform operation).reported = tracker.reported := by
  cases operation with
  | init size => cases continues
  | add count =>
      have zero : count = 0 := UInt64.toNat_inj.mp nothing
      rw [perform, add, if_pos zero]
      exact ⟨rfl, rfl⟩
  | entry name => exact ⟨rfl, rfl⟩
  | print text => exact ⟨rfl, rfl⟩
  | stop =>
      rw [perform, stop]
      split <;> exact ⟨rfl, rfl⟩
  | write taken =>
      rw [Operation.amount] at nothing
      rw [perform, wrote_eq_add, nothing]
      exact ⟨rfl, rfl⟩

theorem perform_counts (continues : operation.restarts = false) :
    Counts tracker operation.amount.toUInt64 (tracker.report? operation) (tracker.perform operation) := by
  by_cases nothing : operation.amount = 0
  · have kept := tracker.perform_keeps continues nothing
    rw [report?, nothing]
    exact .quiet _ (kept.1.trans (UInt64.add_zero _).symm) kept.2
  · rw [tracker.perform_eq_add nothing]
    exact tracker.add_counts _

theorem report?_eq_some {report : Report} (line : tracker.report? operation = some report) :
    report.tracker.processed = tracker.processed + operation.amount.toUInt64 ∧
      report.tracker.reported = tracker.reported := by
  have counts := tracker.add_counts operation.amount.toUInt64
  rw [← report?, line] at counts
  cases counts with
  | line _ _ told since _ _ => exact ⟨told, since⟩

end Step

structure Event where
  operation : Operation
  report : Option Report

def history (tracker : Tracker) : List Operation → List Event
  | [] => []
  | operation :: rest => ⟨operation, tracker.report? operation⟩ :: (tracker.perform operation).history rest

theorem history_concat (tracker : Tracker) (operations : List Operation) (operation : Operation) :
    tracker.history (operations ++ [operation]) =
      tracker.history operations ++ [⟨operation, (tracker.performAll operations).report? operation⟩] := by
  induction operations generalizing tracker with
  | nil => rfl
  | cons first rest ih =>
      rw [List.cons_append, history, ih]
      rfl

/-- The events behind the last restart. -/
def sinceInit (events : List Event) : List Event :=
  events.rtakeWhile fun event => !event.operation.restarts

def sinceLine (events : List Event) : List Event :=
  events.rtakeWhile fun event => !event.operation.restarts && event.report.isNone

def counted (events : List Event) : Nat :=
  (events.map fun event => event.operation.amount).sum

/-- All bytes that the lines in some events give the rates of. -/
def attributed (events : List Event) : Nat :=
  ((events.filterMap Event.report).map fun report => report.fresh.toNat).sum

section Books

variable (events : List Event) (operation : Operation) (line : Option Report)

theorem counted_concat : counted (events ++ [⟨operation, line⟩]) = counted events + operation.amount := by
  simp [counted]

theorem attributed_concat :
    attributed (events ++ [⟨operation, line⟩]) =
      attributed events + (line.map fun report => report.fresh.toNat).getD 0 := by
  cases line <;> simp [attributed]

theorem sinceInit_concat :
    sinceInit (events ++ [⟨operation, line⟩]) =
      if operation.restarts then [] else sinceInit events ++ [⟨operation, line⟩] := by
  rw [sinceInit, List.rtakeWhile_concat]
  cases operation.restarts <;> rfl

theorem sinceLine_concat :
    sinceLine (events ++ [⟨operation, line⟩]) =
      if operation.restarts || line.isSome then [] else sinceLine events ++ [⟨operation, line⟩] := by
  rw [sinceLine, List.rtakeWhile_concat]
  cases operation.restarts <;> cases line <;> rfl

end Books

/-- The books of a tracker agree with what has happened to it: it has counted the bytes since the restart, has
yet to report those since the last line, and as long as the count has not wrapped around, the lines since the
restart account for the rest. -/
structure Balanced (tracker : Tracker) (events : List Event) : Prop where
  processed : tracker.processed = (counted (sinceInit events)).toUInt64
  pending : tracker.processed - tracker.reported = (counted (sinceLine events)).toUInt64
  settled : counted (sinceInit events) < 2 ^ 64 →
    attributed (sinceInit events) + counted (sinceLine events) = counted (sinceInit events)

namespace Balanced

theorem of_empty {tracker : Tracker} {events : List Event} (processed : tracker.processed = 0)
    (reported : tracker.reported = 0) (restarted : sinceInit events = []) (silent : sinceLine events = []) :
    Balanced tracker events := by
  refine ⟨?_, ?_, ?_⟩
  · rw [processed, restarted]
    rfl
  · rw [processed, reported, silent]
    rfl
  · rw [restarted, silent]
    exact fun _ => rfl

variable {tracker : Tracker} {events : List Event}

theorem processed_add (balanced : Balanced tracker events) (amount : Nat) :
    tracker.processed + amount.toUInt64 = (counted (sinceInit events) + amount).toUInt64 := by
  rw [balanced.processed]
  exact (UInt64.ofNat_add _ _).symm

theorem pending_add (balanced : Balanced tracker events) (amount : Nat) :
    tracker.processed + amount.toUInt64 - tracker.reported =
      (counted (sinceLine events) + amount).toUInt64 := by
  calc
    tracker.processed + amount.toUInt64 - tracker.reported =
        tracker.processed - tracker.reported + amount.toUInt64 := by
      rw [UInt64.sub_eq_add_neg, UInt64.sub_eq_add_neg, UInt64.add_assoc, UInt64.add_comm amount.toUInt64,
        ← UInt64.add_assoc]
    _ = (counted (sinceLine events) + amount).toUInt64 := by
      rw [balanced.pending]
      exact (UInt64.ofNat_add _ _).symm

theorem restart (size : UInt64) :
    Balanced (tracker.perform (.init size)) (events ++ [⟨.init size, tracker.report? (.init size)⟩]) := by
  apply of_empty
  · rfl
  · rfl
  · rw [sinceInit_concat]
    rfl
  · rw [sinceLine_concat]
    rfl

theorem quiet (balanced : Balanced tracker events) {operation : Operation} {after : Tracker}
    (continues : operation.restarts = false)
    (processed : after.processed = tracker.processed + operation.amount.toUInt64)
    (reported : after.reported = tracker.reported) : Balanced after (events ++ [⟨operation, none⟩]) := by
  have since : sinceInit (events ++ [⟨operation, none⟩]) = sinceInit events ++ [⟨operation, none⟩] := by
    rw [sinceInit_concat, continues]
    rfl
  have unreported : sinceLine (events ++ [⟨operation, none⟩]) = sinceLine events ++ [⟨operation, none⟩] := by
    rw [sinceLine_concat, continues]
    rfl
  constructor
  · rw [processed, balanced.processed_add, since, counted_concat]
  · rw [processed, reported, balanced.pending_add, unreported, counted_concat]
  · rw [since, unreported, counted_concat, counted_concat, attributed_concat]
    intro fits
    have sum := balanced.settled (by omega)
    simp only [Option.map_none, Option.getD_none]
    omega

/-- As long as the count fits, the bytes yet to be reported are just those since the last line. -/
theorem pending_toNat (balanced : Balanced tracker events) (amount : Nat)
    (fits : counted (sinceInit events) + amount < 2 ^ 64) :
    (tracker.processed + amount.toUInt64 - tracker.reported).toNat = counted (sinceLine events) + amount := by
  have sum := balanced.settled (by omega)
  rw [balanced.pending_add, Nat.toUInt64_eq, UInt64.toNat_ofNat']
  omega

theorem reported_le (balanced : Balanced tracker events) (amount : Nat)
    (fits : counted (sinceInit events) + amount < 2 ^ 64) :
    tracker.reported ≤ tracker.processed + amount.toUInt64 := by
  have sum := balanced.settled (by omega)
  have pending := balanced.pending_toNat _ fits
  have whole : (tracker.processed + amount.toUInt64).toNat = counted (sinceInit events) + amount := by
    rw [balanced.processed_add, Nat.toUInt64_eq, UInt64.toNat_ofNat']
    exact Nat.mod_eq_of_lt fits
  have below := tracker.reported.toNat_lt
  apply UInt64.le_iff_toNat_le.mpr
  -- A subtraction that wraps around would give more than has been counted.
  rw [UInt64.toNat_sub, whole] at pending
  rw [whole]
  omega

theorem line (balanced : Balanced tracker events) {operation : Operation} {after : Tracker} {report : Report}
    (continues : operation.restarts = false)
    (told : report.tracker.processed = tracker.processed + operation.amount.toUInt64)
    (earlier : report.tracker.reported = tracker.reported)
    (processed : after.processed = report.tracker.processed)
    (reported : after.reported = report.tracker.processed) :
    Balanced after (events ++ [⟨operation, some report⟩]) := by
  have since : sinceInit (events ++ [⟨operation, some report⟩]) =
      sinceInit events ++ [⟨operation, some report⟩] := by
    rw [sinceInit_concat, continues]
    rfl
  have closed : sinceLine (events ++ [⟨operation, some report⟩]) = [] := by
    rw [sinceLine_concat, continues]
    rfl
  constructor
  · rw [processed, told, balanced.processed_add, since, counted_concat]
  · rw [processed, reported, closed, UInt64.sub_self]
    rfl
  · rw [since, closed, counted_concat, attributed_concat]
    intro fits
    have sum := balanced.settled (by omega)
    have whole : report.fresh.toNat = counted (sinceLine events) + operation.amount := by
      rw [Report.fresh, told, earlier, balanced.pending_toNat _ fits]
    simp only [Option.map_some, Option.getD_some, whole, counted, List.map_nil, List.sum_nil] at sum ⊢
    omega

theorem step (balanced : Balanced tracker events) (operation : Operation) :
    Balanced (tracker.perform operation) (events ++ [⟨operation, tracker.report? operation⟩]) := by
  cases restarts : operation.restarts with
  | true =>
      cases operation with
      | init size => exact restart size
      | _ => cases restarts
  | false =>
      have counts := tracker.perform_counts restarts
      generalize tracker.report? operation = line, tracker.perform operation = after at counts ⊢
      cases counts with
      | quiet _ processed reported => exact balanced.quiet restarts processed reported
      | line report _ told since processed reported =>
          exact balanced.line restarts told since processed reported

end Balanced

theorem balanced_history (enabled : Bool) (clock : Clock) (operations : List Operation) :
    Balanced (performAll { enabled, clock } operations) (history { enabled, clock } operations) := by
  induction operations using List.reverseRecOn with
  | nil => exact .of_empty rfl rfl rfl rfl
  | append_singleton operations operation ih =>
      rw [history_concat, performAll, List.foldl_concat]
      exact ih.step operation

/-- Every byte that a new tracker counts is spoken of by one line or is yet to be reported. After any operations
the count is the sum since the last restart, modulo `2 ^ 64`. Whatever operation comes next, if it tells of bytes
it prints its line and nothing else, and the difference that the line takes its rate from is the bytes since the
line before or the restart. As long as the sum fits in 64 bits no difference underflows, and the lines since the
restart together with what is yet to be reported account for the whole count. -/
theorem bytes_reported_once (enabled : Bool) (clock : Clock) (operations : List Operation) :
    let tracker := performAll { enabled, clock } operations
    let events := history { enabled, clock } operations
    tracker.processed.toNat = counted (sinceInit events) % 2 ^ 64 ∧
    (∀ operation, operation.amount ≠ 0 → (tracker.perform operation).printed =
      tracker.printed ++ ((tracker.report? operation).map Report.text).getD []) ∧
    (∀ operation report, tracker.report? operation = some report →
      report.fresh.toNat = (counted (sinceLine events) + operation.amount) % 2 ^ 64 ∧
      (counted (sinceInit events) + operation.amount < 2 ^ 64 →
        report.tracker.reported ≤ report.tracker.processed ∧
          report.fresh.toNat = counted (sinceLine events) + operation.amount)) ∧
    (counted (sinceInit events) < 2 ^ 64 →
      tracker.reported ≤ tracker.processed ∧
        (tracker.processed - tracker.reported).toNat = counted (sinceLine events) ∧
        attributed (sinceInit events) + (tracker.processed - tracker.reported).toNat =
          tracker.processed.toNat) := by
  intro tracker events
  have balanced : Balanced tracker events := balanced_history enabled clock operations
  refine ⟨?_, ?_, ?_, ?_⟩
  · rw [balanced.processed, Nat.toUInt64_eq, UInt64.toNat_ofNat']
  · intro operation counts
    exact tracker.perform_printed counts
  · intro operation report line
    obtain ⟨told, since⟩ := tracker.report?_eq_some line
    rw [Report.fresh, told, since]
    constructor
    · rw [balanced.pending_add, Nat.toUInt64_eq, UInt64.toNat_ofNat']
    · intro fits
      exact ⟨balanced.reported_le _ fits, balanced.pending_toNat _ fits⟩
  · intro fits
    have nothing : tracker.processed + Nat.toUInt64 0 = tracker.processed := UInt64.add_zero _
    have bounded := balanced.reported_le 0 fits
    have pending := balanced.pending_toNat 0 fits
    rw [nothing] at bounded pending
    refine ⟨bounded, pending, ?_⟩
    calc
      attributed (sinceInit events) + (tracker.processed - tracker.reported).toNat =
          attributed (sinceInit events) + counted (sinceLine events) := by rw [pending, Nat.add_zero]
      _ = counted (sinceInit events) := balanced.settled fits
      _ = tracker.processed.toNat := by
        rw [balanced.processed, Nat.toUInt64_eq, UInt64.toNat_ofNat']
        exact (Nat.mod_eq_of_lt fits).symm

/-- A clock that goes back twice and then forward by three seconds. -/
def backward : Clock where
  readings := fun k => [9000000000, 5000000000, 4000000000, 7000000000].getD k 0

def whileBehind : List Operation :=
  [.add 9, .init 100, .add 5, .entry (utf8 "a")]

/-- The first bytes since the restart are counted while the clock is behind, without a line. The line that a
write of three more brings speaks of all eight, and with it they are accounted for. -/
theorem bytes_reported_once_backward_clock :
    (∃ report,
      (performAll { enabled := true, clock := backward } whileBehind).report? (.write 3) = some report ∧
      counted (sinceInit (history { enabled := true, clock := backward } whileBehind)) + 3 < 2 ^ 64 ∧
      report.tracker.reported ≤ report.tracker.processed ∧ report.fresh.toNat = 8) ∧
    counted (sinceInit (history { enabled := true, clock := backward } (whileBehind ++ [.write 3]))) < 2 ^ 64 ∧
    attributed (sinceInit (history { enabled := true, clock := backward } (whileBehind ++ [.write 3]))) = 8 ∧
    (performAll { enabled := true, clock := backward } (whileBehind ++ [.write 3])).processed.toNat = 8 := by
  obtain ⟨_, _, lines, _⟩ := bytes_reported_once true backward whileBehind
  obtain ⟨counts, _, _, settles⟩ := bytes_reported_once true backward (whileBehind ++ [.write 3])
  have prints :
      ((performAll { enabled := true, clock := backward } whileBehind).report? (.write 3)).isSome = true := by
    decide +kernel
  have recent : counted (sinceLine (history { enabled := true, clock := backward } whileBehind)) = 5 := by
    decide +kernel
  have since : counted (sinceInit (history { enabled := true, clock := backward } whileBehind)) = 5 := by
    decide +kernel
  have all :
      counted (sinceInit (history { enabled := true, clock := backward } (whileBehind ++ [.write 3]))) = 8 := by
    decide +kernel
  have closed :
      counted (sinceLine (history { enabled := true, clock := backward } (whileBehind ++ [.write 3]))) = 0 := by
    decide +kernel
  rw [since]
  rw [all] at counts settles ⊢
  obtain ⟨_, pending, sum⟩ := settles (by decide)
  rw [pending, closed, counts] at sum
  refine ⟨?_, by decide, sum, counts⟩
  obtain ⟨report, line⟩ := Option.isSome_iff_exists.mp prints
  obtain ⟨bounded, fresh⟩ := (lines (.write 3) report line).2 (by rw [since]; decide)
  rw [recent] at fresh
  exact ⟨report, line, by decide, bounded, fresh⟩

end IgaArchive.Tracker
