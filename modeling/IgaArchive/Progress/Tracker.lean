import IgaArchive.Progress.Amount

/-!
Progress of a transfer. A tracker prints the names of members as they start and, when enabled, a line
whenever a second has passed or the share done has grown by ten percent, and a summary at the end.
Times are nanoseconds; counters are 64-bit and wrap around.
-/

namespace IgaArchive

/-- The readings of a clock in the order they are taken. They may go backwards. -/
structure Clock where
  readings : Nat → Int
  taken : Nat := 0

namespace Clock

def ticking (start tick : Int) : Clock where
  readings := fun k => start + k * tick

def still (now : Int) : Clock :=
  ticking now 0

def read (clock : Clock) : Int × Clock :=
  (clock.readings clock.taken, { clock with taken := clock.taken + 1 })

/-- The time before any clock was read: the start of year 1. -/
def unset : Int := -62135596800000000000

/-- The time between two readings, held within 64 bits. -/
def between (earlier later : Int) : Int :=
  max Int64.minValue.toInt (min Int64.maxValue.toInt (later - earlier))

def seconds (span : Int) : Float :=
  Float.ofInt (span.tdiv 1000000000) + Float.ofInt (span.tmod 1000000000) / 1e9

end Clock

structure Tracker where
  enabled : Bool
  clock : Clock
  total : UInt64 := 0
  processed : UInt64 := 0
  /-- The bytes that the lines printed so far account for. -/
  reported : UInt64 := 0
  /-- The share of the total at the last line, in percent. -/
  reportedShare : Float := 0
  started : Int := Clock.unset
  lastReport : Int := Clock.unset
  printed : Bytes := []

namespace Tracker

/-- The least time between two lines that bring less than ten percent. -/
def interval : Int := 1000000000

/-- Rates are taken over at least a millisecond. -/
def atLeastAMillisecond (seconds : Float) : Float :=
  if seconds < 0.001 then 0.001 else seconds

def print (tracker : Tracker) (text : Bytes) : Tracker :=
  { tracker with printed := tracker.printed ++ text }

/-- Starts over for an operation that moves `size` bytes. An empty one counts as one byte. -/
def init (tracker : Tracker) (size : UInt64) : Tracker :=
  let (now, clock) := tracker.clock.read
  { tracker with
    clock, total := if size = 0 then 1 else size, processed := 0, reported := 0,
    reportedShare := 0, started := now, lastReport := now }

def entry (tracker : Tracker) (name : Bytes) : Tracker :=
  tracker.print (name ++ [Bytes.newline])

def share (tracker : Tracker) : Float :=
  tracker.processed.toFloat / tracker.total.toFloat * 100

def line (tracker : Tracker) (elapsed : Int) : Bytes :=
  let rate := (tracker.processed - tracker.reported).toFloat /
    atLeastAMillisecond (Clock.seconds elapsed)
  utf8 "Processed " ++ Amount.size tracker.processed ++ utf8 " of " ++ Amount.size tracker.total ++
    utf8 " (" ++ Fixed.tenths tracker.share ++ utf8 "%) | Rate: " ++
    Amount.rate (Fixed.toUInt64 rate) ++ utf8 "\n"

def report (tracker : Tracker) : Tracker :=
  let (now, clock) := tracker.clock.read
  let tracker := { tracker with clock }
  let elapsed := Clock.between tracker.lastReport now
  if elapsed < interval && tracker.share - tracker.reportedShare < 10 then tracker
  else
    { tracker.print (tracker.line elapsed) with
      reported := tracker.processed, reportedShare := tracker.share, lastReport := now }

def add (tracker : Tracker) (count : UInt64) : Tracker :=
  if count = 0 then tracker
  else
    let tracker := { tracker with processed := tracker.processed + count }
    if tracker.enabled then tracker.report else tracker

/-- Counts what a writer says it has taken. A count that is not positive adds nothing. -/
def wrote (tracker : Tracker) (taken : Int64) : Tracker :=
  if 0 < taken then tracker.add taken.toUInt64 else tracker

def summary (tracker : Tracker) (elapsed : Int) : Bytes :=
  let seconds := atLeastAMillisecond (Clock.seconds elapsed)
  utf8 "Completed processing " ++ Amount.size tracker.processed ++ utf8 " in " ++
    Fixed.tenths seconds ++ utf8 " seconds (avg rate: " ++
    Amount.rate (Fixed.toUInt64 (tracker.processed.toFloat / seconds)) ++ utf8 ")\n"

def stop (tracker : Tracker) : Tracker :=
  if tracker.enabled then
    let (now, clock) := tracker.clock.read
    { tracker with clock }.print (tracker.summary (Clock.between tracker.started now))
  else tracker

end Tracker

end IgaArchive
