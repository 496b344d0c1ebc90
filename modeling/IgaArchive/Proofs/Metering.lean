import IgaArchive.Proofs.Action
import IgaArchive.Proofs.Payload

/-!
Keeping account of what a run moves. A meter on a sink adds up the bytes the sink takes and changes nothing
else; a ledger notes for each item how much its step moved, up to the first step that fails. Where a tracker
is told of what each step moves, it has been told of the sum of the ledger in the end.
-/

namespace IgaArchive.Payload

variable {σ ε : Type}

/-- A sink with a meter for the bytes it takes. -/
def metered (takes : σ → Bytes → Nat) (sink : Sink σ ε) : Sink (σ × Nat) ε := fun (state, amount) bytes =>
  let (next, error) := sink state bytes
  ((next, amount + takes state bytes), error)

theorem metered_eq {takes : σ → Bytes → Nat} {sink : Sink σ ε} {before after : σ × Nat} {bytes : Bytes}
    {error : Option ε} (written : metered takes sink before bytes = (after, error)) :
    sink before.1 bytes = (after.1, error) ∧ after.2 = before.2 + takes before.1 bytes := by
  cases written
  exact ⟨rfl, rfl⟩

section Accepted

variable (source : Source σ) (sink : Sink σ ε) (takes : σ → Bytes → Nat) (key : UInt8) (buffer count : Nat)

def accepted (state : σ) : Nat :=
  (transfer (fun metered => source metered.1) (metered takes sink) key buffer count (state, 0)).1.2

theorem transferFrom_metered (position : Nat) (state : σ) (amount : Nat) :
    Prod.map Prod.fst id
        (transferFrom (fun metered => source metered.1) (metered takes sink) key buffer count position
          (state, amount)) =
      transferFrom source sink key buffer count position state := by
  induction left : count - position using Nat.strongRecOn generalizing position state amount with
  | ind left_ ih =>
      rw [transferFrom, transferFrom]
      by_cases more : position < count ∧ 0 < buffer
      · simp only [dif_pos more, metered]
        split
        · rfl
        · cases offered : sink state (transform key (Int64.ofNat position)
              (source state position (min buffer (count - position)))) with
          | mk next error =>
              cases error with
              | some error => rfl
              | none => exact ih _ (by omega) _ _ _ rfl
      · simp only [dif_neg more]
        rfl

/-- A transfer that starts with nothing on the meter ends with what was told of it: no more than was asked
for, and all of that if the transfer succeeds. -/
theorem transfer_accepted (healthy : σ → Prop) (told : Nat → σ → Prop) (positive : 0 < buffer)
    (modest : ∀ state position length, (source state position length).length ≤ length)
    (writes : ∀ state bytes next error, healthy state → sink state bytes = (next, error) →
      takes state bytes ≤ bytes.length ∧
        (error = none → takes state bytes = bytes.length ∧ healthy next) ∧
        ∀ amount, told amount state → told (amount + takes state bytes) next)
    (state final : σ) (result : TransferResult ε) (start : healthy state) (fresh : told 0 state)
    (ran : transfer source sink key buffer count state = (final, result)) :
    told (accepted source sink takes key buffer count state) final ∧
      accepted source sink takes key buffer count state ≤ count ∧
      (result.error = none →
        accepted source sink takes key buffer count state = count ∧ healthy final) := by
  have same := transferFrom_metered source sink takes key buffer count 0 state 0
  have outcome := transferFrom_outcome (fun metered => source metered.1) (metered takes sink) key buffer count
    (fun position metered => healthy metered.1 ∧ told metered.2 metered.1 ∧ metered.2 = position) positive
    (by
      intro position before after holds more full written
      obtain ⟨well, kept, moved⟩ := holds
      obtain ⟨taken, sum⟩ := metered_eq written
      obtain ⟨_, all, adds⟩ := writes _ _ _ _ well taken
      obtain ⟨whole, still⟩ := all rfl
      have length := Nat.le_antisymm (modest _ _ _) full
      rw [transform_length, length] at whole
      refine ⟨still, ?_, ?_⟩
      · rw [sum]
        exact adds _ kept
      · rw [sum, whole, moved])
    0 (state, 0) ⟨start, fresh, rfl⟩ (Nat.zero_le _)
  rw [transfer] at ran
  rw [accepted, transfer]
  rw [ran] at same
  rcases outcome with ⟨last, run, well, kept, all⟩ | ⟨reached, last, ⟨well, kept, moved⟩, more, _, run⟩ |
    ⟨reached, before, last, error, ⟨well, kept, moved⟩, more, full, refused, run⟩
  · rw [run] at same ⊢
    cases same
    exact ⟨kept, Nat.le_of_eq all, fun _ => ⟨all, well⟩⟩
  · rw [run] at same ⊢
    cases same
    have bound : last.2 ≤ count := by omega
    exact ⟨kept, bound, fun done => absurd done (by simp)⟩
  · rw [run] at same ⊢
    cases same
    obtain ⟨taken, sum⟩ := metered_eq refused
    obtain ⟨part, _, adds⟩ := writes _ _ _ _ well taken
    have length := Nat.le_antisymm (modest _ _ _) full
    rw [transform_length, length] at part
    have bound : last.2 ≤ count := by omega
    refine ⟨?_, bound, fun done => absurd done (by simp)⟩
    simp only [sum]
    exact adds _ kept

end Accepted

end IgaArchive.Payload

namespace IgaArchive

/-- A tracker that has been told of some more bytes and, if it reports no progress, has printed just this. -/
structure Tracker.Adds (amount : Nat) (text : Bytes) (before after : Tracker) : Prop where
  processed : after.processed = before.processed + amount.toUInt64
  enabled : after.enabled = before.enabled
  printed : before.enabled = false → after.printed = before.printed ++ text

namespace Tracker.Adds

theorem refl (tracker : Tracker) : Adds 0 [] tracker tracker :=
  ⟨(UInt64.add_zero _).symm, rfl, fun _ => (List.append_nil _).symm⟩

theorem trans {amount more : Nat} {text further : Bytes} {first second third : Tracker}
    (earlier : Adds amount text first second) (later : Adds more further second third) :
    Adds (amount + more) (text ++ further) first third := by
  constructor
  · rw [later.processed, earlier.processed, UInt64.add_assoc]
    congr 1
    exact (UInt64.ofNat_add amount more).symm
  · rw [later.enabled, earlier.enabled]
  · intro disabled
    rw [later.printed (earlier.enabled.trans disabled), earlier.printed disabled, List.append_assoc]

theorem entry (tracker : Tracker) (name : Bytes) :
    Adds 0 (name ++ [Bytes.newline]) tracker (tracker.entry name) :=
  ⟨(UInt64.add_zero _).symm, rfl, fun _ => rfl⟩

theorem add (tracker : Tracker) (amount : Nat) : Adds amount [] tracker (tracker.add amount.toUInt64) := by
  rw [Tracker.add]
  split
  · rename_i nothing
    exact ⟨by rw [nothing, UInt64.add_zero], rfl, fun _ => (List.append_nil _).symm⟩
  · dsimp only
    split
    · rename_i reports
      rw [Tracker.report]
      dsimp only
      split
      · exact ⟨rfl, rfl, fun disabled => absurd (reports.symm.trans disabled) nofun⟩
      · exact ⟨rfl, rfl, fun disabled => absurd (reports.symm.trans disabled) nofun⟩
    · exact ⟨rfl, rfl, fun _ => (List.append_nil _).symm⟩

theorem stop (tracker : Tracker) : Adds 0 [] tracker tracker.stop := by
  rw [Tracker.stop]
  split
  · rename_i reports
    exact ⟨(UInt64.add_zero _).symm, rfl, fun disabled => absurd (reports.symm.trans disabled) nofun⟩
  · exact refl tracker

end Tracker.Adds

def Workspace.Adds (amount : Nat) (text : Bytes) (before after : Workspace) : Prop :=
  ∀ tracker, before.tracker = some tracker →
    ∃ later, after.tracker = some later ∧ Tracker.Adds amount text tracker later

namespace Workspace.Adds

theorem of_same {before after : Workspace} (same : after.tracker = before.tracker) :
    Adds 0 [] before after := by
  intro tracker tracked
  exact ⟨tracker, same.trans tracked, .refl tracker⟩

theorem followed {amount : Nat} {text : Bytes} {first second third : Workspace}
    (adds : Adds amount text first second) (same : third.tracker = second.tracker) :
    Adds amount text first third := by
  rw [Adds, same]
  exact adds

theorem trans {amount more : Nat} {text further : Bytes} {first second third : Workspace}
    (earlier : Adds amount text first second) (later : Adds more further second third) :
    Adds (amount + more) (text ++ further) first third := by
  intro tracker tracked
  obtain ⟨middle, between, adds⟩ := earlier tracker tracked
  obtain ⟨last, ends, further⟩ := later middle between
  exact ⟨last, ends, adds.trans further⟩

theorem track {amount : Nat} {text : Bytes} {change : Tracker → Tracker}
    (adds : ∀ tracker, Tracker.Adds amount text tracker (change tracker)) (workspace : Workspace) :
    Adds amount text workspace (workspace.track change) := by
  intro tracker tracked
  exact ⟨change tracker, by rw [Workspace.track, tracked]; rfl, adds tracker⟩

theorem count (workspace : Workspace) (amount : Nat) :
    Adds amount [] workspace (workspace.count amount) :=
  track (fun tracker => Tracker.Adds.add tracker amount) workspace

end Workspace.Adds

namespace Action

/-- An action that tells the tracker nothing, whether it succeeds or fails. -/
def TellsNothing {α : Type} (action : Action α) : Prop :=
  ∀ before, (action.runOn before).2.tracker = before.tracker

namespace TellsNothing

variable {α β : Type}

theorem pure (value : α) : TellsNothing (Pure.pure value : Action α) :=
  fun _ => rfl

theorem ofExcept (result : Except Failure α) : TellsNothing (Action.ofExcept result) :=
  fun _ => rfl

theorem detail (message : Bytes) : TellsNothing (Action.detail message) :=
  fun _ => rfl

theorem ask (question : Store → Except Fault α) : TellsNothing (Action.ask question) :=
  fun _ => rfl

theorem alter (change : Store → Except Fault (α × Store)) : TellsNothing (Action.alter change) := by
  intro before
  rw [runOn, Action.alter]
  split <;> rfl

theorem during (step : Step) {action : Action α} (silent : TellsNothing action) :
    TellsNothing (Action.during step action) :=
  silent

theorem bind {action : Action α} {next : α → Action β} (first : TellsNothing action)
    (rest : ∀ value, TellsNothing (next value)) : TellsNothing (action >>= next) := by
  intro before
  have same := first before
  cases ran : action.runOn before with
  | mk result between =>
      rw [ran] at same
      cases result with
      | error failure =>
          rw [bind_of_error _ _ _ _ _ ran]
          exact same
      | ok value =>
          rw [bind_of_ok _ _ _ _ _ ran]
          exact (rest value between).trans same

end TellsNothing

section Ledger

variable {ι α : Type} (step : α → ι → Action α) (moved : α → ι → Workspace → Nat)

/-- What the steps of a run move, item by item, up to the first that fails. -/
def ledger : List ι → α → Workspace → List (ι × Nat)
  | [], _, _ => []
  | item :: rest, state, before =>
    (item, moved state item before) ::
      match (step state item).runOn before with
      | (.ok next, between) => ledger rest next between
      | (.error _, _) => []

def total : List (ι × Nat) → Nat
  | [] => 0
  | noted :: ledger => noted.2 + total ledger

theorem total_map {κ : Type} (of : ι → κ) (ledger : List (ι × Nat)) :
    total (ledger.map (Prod.map of id)) = total ledger := by
  induction ledger with
  | nil => rfl
  | cons noted ledger ih =>
      rw [List.map_cons, total, total, ih]
      rfl

theorem ledger_of_ok (item : ι) (rest : List ι) (state next : α) (before between : Workspace)
    (ran : (step state item).runOn before = (.ok next, between)) :
    ledger step moved (item :: rest) state before =
      (item, moved state item before) :: ledger step moved rest next between := by
  rw [ledger, ran]

theorem ledger_of_error (item : ι) (rest : List ι) (state : α) (before between : Workspace)
    (failure : Failure) (ran : (step state item).runOn before = (.error failure, between)) :
    ledger step moved (item :: rest) state before = [(item, moved state item before)] := by
  rw [ledger, ran]

/-- A ledger over items that have sizes: it runs over them from the front, all but the last of its amounts are
the sizes, and if nothing has failed it runs over all of them with their sizes. -/
structure Booked (size : ι → Nat) (items : List ι) (ledger : List (ι × Nat)) (succeeded : Prop) : Prop where
  front : ledger.map Prod.fst <+: items
  bounded : ∀ noted ∈ ledger, noted.2 ≤ size noted.1
  full : ∀ noted ∈ ledger.dropLast, noted.2 = size noted.1
  whole : succeeded → ledger = items.map fun item => (item, size item)

namespace Booked

variable {size : ι → Nat} {items : List ι} {ledger : List (ι × Nat)} {succeeded : Prop}

theorem unstarted (failed : ¬ succeeded) : Booked size items [] succeeded :=
  ⟨List.nil_prefix, nofun, nofun, fun done => absurd done failed⟩

theorem halted (item : ι) (rest : List ι) {amount : Nat} (bound : amount ≤ size item)
    (failed : ¬ succeeded) : Booked size (item :: rest) [(item, amount)] succeeded := by
  refine ⟨?_, ?_, nofun, fun done => absurd done failed⟩
  · simp
  · simpa using bound

theorem cons (booked : Booked size items ledger succeeded) (item : ι) :
    Booked size (item :: items) ((item, size item) :: ledger) succeeded := by
  refine ⟨?_, List.forall_mem_cons.mpr ⟨Nat.le_refl _, booked.bounded⟩, ?_, ?_⟩
  · rw [List.map_cons, List.cons_prefix_cons]
    exact ⟨rfl, booked.front⟩
  · cases ledger with
    | nil => exact nofun
    | cons noted ledger =>
        rw [List.dropLast_cons_of_ne_nil (List.cons_ne_nil _ _)]
        exact List.forall_mem_cons.mpr ⟨rfl, booked.full⟩
  · intro done
    rw [booked.whole done, List.map_cons]

theorem imp {weaker : Prop} (booked : Booked size items ledger succeeded) (known : weaker → succeeded) :
    Booked size items ledger weaker :=
  ⟨booked.front, booked.bounded, booked.full, fun done => booked.whole (known done)⟩

theorem map {κ : Type} (of : ι → κ) (sizeOf : κ → Nat)
    (booked : Booked (fun item => sizeOf (of item)) items ledger succeeded) :
    Booked sizeOf (items.map of) (ledger.map (Prod.map of id)) succeeded := by
  constructor
  · have started : (ledger.map (Prod.map of id)).map Prod.fst = (ledger.map Prod.fst).map of := by
      rw [List.map_map, List.map_map]
      rfl
    rw [started]
    exact booked.front.map of
  · rw [List.forall_mem_map]
    exact booked.bounded
  · rw [← List.map_dropLast, List.forall_mem_map]
    exact booked.full
  · intro done
    rw [booked.whole done, List.map_map, List.map_map]
    rfl

end Booked

/-- What a step must keep to so that the books are right: the tracker is told of what it moves, which is no
more than the item has, and all of it if the step succeeds. -/
def Keeps (size : ι → Nat) (text : ι → Bytes) (fit : α → Prop) : Prop :=
  ∀ state item before after result, fit state → (step state item).runOn before = (result, after) →
    Workspace.Adds (moved state item before) (text item) before after ∧
      moved state item before ≤ size item ∧
      ∀ next, result = .ok next → moved state item before = size item ∧ fit next

/-- A run over items goes by its ledger: the tracker has been told of the sum of it. -/
theorem foldlM_ledger {size : ι → Nat} {text : ι → Bytes} {fit : α → Prop}
    (keeps : Keeps step moved size text fit) (items : List ι) (state : α) (before after : Workspace)
    (result : Except Failure α) (start : fit state)
    (ran : (items.foldlM step state).runOn before = (result, after)) :
    Workspace.Adds (total (ledger step moved items state before))
        ((ledger step moved items state before).flatMap fun noted => text noted.1) before after ∧
      Booked size items (ledger step moved items state before) (∃ last, result = .ok last) := by
  induction items generalizing state before with
  | nil =>
      cases ran
      exact ⟨.of_same rfl, List.nil_prefix, nofun, nofun, fun _ => rfl⟩
  | cons item rest ih =>
      rw [List.foldlM_cons] at ran
      cases first : (step state item).runOn before with
      | mk outcome between =>
          obtain ⟨adds, bound, whole⟩ := keeps state item before between outcome start first
          cases outcome with
          | error failure =>
              rw [bind_of_error _ _ _ _ _ first] at ran
              cases ran
              rw [ledger_of_error _ _ _ _ _ _ _ _ first]
              refine ⟨?_, .halted item rest bound ?_⟩
              · simpa [total] using adds
              · simp
          | ok next =>
              rw [bind_of_ok _ _ _ _ _ first] at ran
              rw [ledger_of_ok _ _ _ _ _ _ _ _ first]
              obtain ⟨all, fits⟩ := whole next rfl
              obtain ⟨later, booked⟩ := ih next between fits ran
              rw [all] at adds ⊢
              exact ⟨adds.trans later, booked.cons item⟩

end Ledger

end Action

end IgaArchive
