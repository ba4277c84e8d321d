import Glass.Proofs.ScannerPlaces

/-!
Token streams that share a scanner. A stream starts the scanner over when it is first asked, and from
then on all streams take from the same tokens ahead: what one delivers, no other does. So between two
such restarts the streams together deliver the tokens of the text in order, as far as they get, and
none of them comes to its end before all are delivered. Whether a stream was asked and whether it has
ended is told by the steps done so far and their answers, and the scanner's own record of its streams
is shown to follow them.
-/

namespace Glass.Scanner

/-- The tokens that lie ahead of the current place. -/
def ahead (s : Scanner) : List Token := (placedLexemes 0 s.place s.rest).map PlacedLexeme.token

section
variable {s : Scanner}

theorem ahead_of_rest (h : s.rest = []) : s.ahead = [] := by
  rw [ahead, h]
  rfl

theorem ahead_skipTrivia (s : Scanner) : s.skipTrivia.ahead = s.ahead := by
  rw [ahead, skipTrivia, rest_skip, ahead, placedLexemes_trivia s.place]
  rfl

theorem ahead_scanToken (hrest : s.rest ≠ []) (htrivia : triviaLength false s.rest = 0) :
    s.ahead = s.scanToken.1 :: s.scanToken.2.ahead := by
  obtain ⟨c, rest, hcons⟩ := List.exists_cons_of_ne_nil hrest
  have hsource : (Lexeme.scan s.rest).source <+: s.rest := (Lexeme.scan_inside s.rest).1
  have hbehind : s.scanToken.2.rest = s.rest.drop (Lexeme.scan s.rest).source.length :=
    rest_skip s.setMark _
  have hplace : s.scanToken.2.place = s.place.after (Lexeme.scan s.rest).source :=
    congrArg s.place.after (List.prefix_iff_eq_take.mp hsource).symm
  have hscan := @placedLexemes_scan s.place c rest
  rw [← hcons] at hscan
  rw [ahead, ahead, hbehind, hplace, hscan htrivia]
  rfl

/-- A stream that can go on delivers the first token ahead of it and leaves the others. -/
theorem next_of_enter {index : Nat} {entered : Scanner} (h : s.enter? index = some entered) :
    (s.next index).1 = entered.ahead.head? ∧ (s.next index).2.ahead = entered.ahead.tail := by
  rw [← ahead_skipTrivia entered, next, h]
  dsimp only
  split
  · rename_i hempty
    have hnone := ahead_of_rest (List.isEmpty_iff.mp hempty)
    rw [hnone]
    exact ⟨rfl, hnone⟩
  · rename_i hrest
    have htrivia : triviaLength false entered.skipTrivia.rest = 0 := by
      rw [skipTrivia, rest_skip]
      exact triviaLength_drop ..
    rw [ahead_scanToken (fun hnil => hrest (List.isEmpty_iff.mpr hnil)) htrivia]
    exact ⟨rfl, rfl⟩

/-- Draining takes all that is ahead. -/
theorem drain_of_enter {index : Nat} {entered : Scanner} (h : s.enter? index = some entered) :
    (s.drain index).1 = entered.ahead ∧ (s.drain index).2.ahead = [] := by
  rw [drain, h]
  refine ⟨rfl, ahead_of_rest ?_⟩
  exact (rest_skip _ _).trans (List.drop_length ..)

theorem enter?_fresh {index : Nat} (h : s.streams[index]? = some .fresh) :
    s.enter? index = some ({ s with place := {} }.setStream index .running) := by
  rw [enter?, h]

theorem enter?_running {index : Nat} (h : s.streams[index]? = some .running) :
    s.enter? index = some s := by
  rw [enter?, h]

theorem enter?_ended {index : Nat} (h : s.streams[index]? = some .ended) :
    s.enter? index = none := by
  rw [enter?, h]

theorem next_of_enter?_eq_none {index : Nat} (h : s.enter? index = none) :
    s.next index = (none, s) := by
  rw [next, h]

theorem drain_of_enter?_eq_none {index : Nat} (h : s.enter? index = none) :
    s.drain index = ([], s) := by
  rw [drain, h]

/-- A fresh stream finds all tokens ahead of it. -/
theorem ahead_restarted {source : String} (h : s.source = source.toList) (index : Nat) :
    ({ s with place := {} }.setStream index .running).ahead = tokenize source := by
  simp only [ahead, setStream, rest, h, tokenize, lexemesOf]
  rfl

/-- Entering a stream, like asking it, leaves the other streams alone. -/
theorem enter?_other {index other : Nat} {entered : Scanner} (h : s.enter? index = some entered)
    (hne : index ≠ other) : entered.streams[other]? = s.streams[other]? := by
  unfold enter? at h
  split at h
  · obtain rfl := Option.some.inj h
    exact List.getElem?_set_ne hne
  · obtain rfl := Option.some.inj h
    rfl
  · cases h
  · cases h

theorem next_other {index other : Nat} (hne : index ≠ other) :
    (s.next index).2.streams[other]? = s.streams[other]? := by
  unfold next
  split
  · rfl
  · rename_i entered hentered
    have hothers := enter?_other hentered hne
    dsimp only
    split
    · exact (List.getElem?_set_ne hne).trans hothers
    · exact hothers

theorem drain_other {index other : Nat} (hne : index ≠ other) :
    (s.drain index).2.streams[other]? = s.streams[other]? := by
  unfold drain
  split
  · rfl
  · rename_i entered hentered
    refine (List.getElem?_set_ne hne).trans (Eq.trans ?_ (enter?_other hentered hne))
    cases (placedLexemes 0 entered.place entered.rest).getLast? <;> rfl

theorem stream_setStream (s : Scanner) (index : Nat) (stream : TokenStream) :
    (s.setStream index stream).streams[index]? = s.streams[index]?.map fun _ => stream := by
  rw [setStream, List.getElem?_set_self']
  rfl

/-- Where a stream can be entered, it is open and has not ended. -/
theorem enter?_stream {index : Nat} {entered : Scanner} (h : s.enter? index = some entered) :
    s.streams[index]?.isSome = true ∧ entered.streams[index]? = some .running := by
  unfold enter? at h
  split at h
  · rename_i hfresh
    obtain rfl := Option.some.inj h
    rw [stream_setStream]
    simp [hfresh]
  · rename_i hrunning
    obtain rfl := Option.some.inj h
    simp [hrunning]
  · cases h
  · cases h

/-- A stream that cannot be entered has ended or was never opened. -/
theorem enter?_eq_none {index : Nat} (h : s.enter? index = none) :
    s.streams[index]? = s.streams[index]?.map fun _ => .ended := by
  unfold enter? at h
  split at h
  · cases h
  · cases h
  · rename_i hended
    rw [hended]
    rfl
  · rename_i hnone
    rw [hnone]
    rfl

/-- Asked for a token, an open stream has ended if there is none, and else is running. -/
theorem stream_next (s : Scanner) (index : Nat) :
    (s.next index).2.streams[index]? =
      s.streams[index]?.map fun _ => if (s.next index).1.isNone then .ended else .running := by
  cases hentered : s.enter? index with
  | none =>
      rw [next_of_enter?_eq_none hentered]
      exact enter?_eq_none hentered
  | some entered =>
      obtain ⟨hopen, hrunning⟩ := enter?_stream hentered
      obtain ⟨stream, hstream⟩ := Option.isSome_iff_exists.mp hopen
      rw [hstream, next, hentered]
      dsimp only
      split
      · rw [stream_setStream]
        exact (congrArg (Option.map _) hrunning).trans rfl
      · exact hrunning

/-- An open stream that was drained has ended. -/
theorem stream_drain (s : Scanner) (index : Nat) :
    (s.drain index).2.streams[index]? = s.streams[index]?.map fun _ => .ended := by
  cases hentered : s.enter? index with
  | none =>
      rw [drain_of_enter?_eq_none hentered]
      exact enter?_eq_none hentered
  | some entered =>
      obtain ⟨hopen, hrunning⟩ := enter?_stream hentered
      obtain ⟨stream, hstream⟩ := Option.isSome_iff_exists.mp hopen
      rw [hstream, drain, hentered]
      dsimp only
      rw [stream_setStream]
      cases (placedLexemes 0 entered.place entered.rest).getLast? <;>
        exact (congrArg (Option.map _) hrunning).trans rfl

end

/-- The stream that a step asks for tokens. -/
def Step.stream? : Step → Option Nat
  | .next index | .drain index => some index
  | _ => none

def Step.opensStream : Step → Bool
  | .openStream => true
  | _ => false

/-- The step opens a stream or asks one. -/
def Step.onStreams (step : Step) : Bool := step.opensStream || step.stream?.isSome

/-- The answer tells that a stream has come to its end: it has no token, or gives all it had left. -/
def Answer.tellsEnd : Answer → Bool
  | .delivered none | .drained _ => true
  | _ => false

/-- The number of streams that the steps open. -/
def opened (steps : List Step) : Nat := steps.countP Step.opensStream

/-- Some step is such that `what` holds of it, given the steps before it. -/
def Happened (what : (done : List Step) → Step → Prop) (steps : List Step) : Prop :=
  ∃ done step more, steps = done ++ step :: more ∧ what done step

/-- The step asks the stream, which was opened before. -/
def Asks (index : Nat) (done : List Step) (step : Step) : Prop :=
  step.stream? = some index ∧ index < opened done

/-- The stream was asked for tokens, one or all. -/
def Asked (steps : List Step) (index : Nat) : Prop := Happened (Asks index) steps

/-- The stream was drained, or asked for a token when there was none. -/
def Ended (source : String) (steps : List Step) (index : Nat) : Prop :=
  Happened (fun done step => Asks index done step ∧
    (((ofText source).performAll done).perform step).1.tellsEnd = true) steps

/-- The step is the first to ask its stream. -/
def Restarts (done : List Step) (step : Step) : Prop :=
  ∃ index, Asks index done step ∧ ¬ Asked done index

/-- All steps are on streams, and none is the first to ask one. -/
def GoesOn (done : List Step) : (steps : List Step) → Prop
  | [] => True
  | step :: steps => step.onStreams = true ∧ ¬ Restarts done step ∧ GoesOn (done ++ [step]) steps

/-- A restart, and steps on streams up to the next one. -/
def IsLap (done : List Step) : (steps : List Step) → Prop
  | [] => False
  | first :: more => Restarts done first ∧ GoesOn (done ++ [first]) more

/-- The tokens that the steps give, in order. -/
def deliveries (s : Scanner) : (steps : List Step) → List Token
  | [] => []
  | step :: steps => (s.perform step).1.tokens ++ (s.perform step).2.deliveries steps

section History

variable {source : String} {done : List Step} {s : Scanner}

theorem happened_concat {what : List Step → Step → Prop} {steps : List Step} {step : Step} :
    Happened what (steps ++ [step]) ↔ Happened what steps ∨ what steps step := by
  constructor
  · rintro ⟨done, found, more, hsteps, hwhat⟩
    rcases List.eq_nil_or_concat more with rfl | ⟨front, last, rfl⟩
    · obtain ⟨rfl, hlast⟩ := List.append_inj' hsteps rfl
      cases hlast
      exact Or.inr hwhat
    · rw [List.concat_eq_append, ← List.cons_append, ← List.append_assoc] at hsteps
      obtain ⟨rfl, _⟩ := List.append_inj' hsteps rfl
      exact Or.inl ⟨done, found, front, rfl, hwhat⟩
  · rintro (⟨done, found, more, rfl, hwhat⟩ | hwhat)
    · exact ⟨done, found, more ++ [step], by simp, hwhat⟩
    · exact ⟨steps, step, [], rfl, hwhat⟩

theorem opened_concat (steps : List Step) (step : Step) :
    opened (steps ++ [step]) = opened steps + if step.opensStream then 1 else 0 := by
  rw [opened, List.countP_append, List.countP_singleton]
  rfl

theorem tellsEnd_next (s : Scanner) (index : Nat) :
    (s.perform (.next index)).1.tellsEnd = (s.next index).1.isNone := by
  change (Answer.delivered (s.next index).1).tellsEnd = (s.next index).1.isNone
  cases (s.next index).1 <;> rfl

/-- A step that asks a stream has it ended or running, as the answer tells. -/
theorem stream_asked {step : Step} {index : Nat} (h : step.stream? = some index) :
    (s.perform step).2.streams[index]? =
      s.streams[index]?.map fun _ => if (s.perform step).1.tellsEnd then .ended else .running := by
  cases step with
  | next =>
      obtain rfl := Option.some.inj h
      rw [tellsEnd_next]
      exact stream_next s _
  | drain =>
      obtain rfl := Option.some.inj h
      exact stream_drain s _
  | _ => cases h

/-- A step that neither opens a stream nor asks this one leaves it as it is. -/
theorem stream_other {step : Step} {index : Nat} (hopens : step.opensStream = false)
    (h : step.stream? ≠ some index) : (s.perform step).2.streams[index]? = s.streams[index]? := by
  cases step with
  | peek | setMark | skipTrivia | scanToken => rfl
  | openStream => cases hopens
  | advance count =>
      simp only [Scanner.perform, advance]
      split <;> rfl
  | next other => exact next_other fun heq => h (congrArg some heq)
  | drain other => exact drain_other fun heq => h (congrArg some heq)

/-- A stream that has ended tells so whenever it is asked. -/
theorem tellsEnd_of_ended {step : Step} {index : Nat} (hstep : step.stream? = some index)
    (h : s.streams[index]? = some .ended) : (s.perform step).1.tellsEnd = true := by
  cases step with
  | next =>
      obtain rfl := Option.some.inj hstep
      rw [tellsEnd_next, next_of_enter?_eq_none (enter?_ended h)]
      rfl
  | drain => rfl
  | _ => cases hstep

theorem Asked.lt_opened {steps : List Step} {index : Nat} (h : Asked steps index) :
    index < opened steps := by
  obtain ⟨done, step, more, rfl, _, hlt⟩ := h
  refine Nat.lt_of_lt_of_le hlt ?_
  rw [opened, opened, List.countP_append]
  exact Nat.le_add_right ..

theorem Ended.asked {steps : List Step} {index : Nat} (h : Ended source steps index) :
    Asked steps index := by
  obtain ⟨done, step, more, hsteps, hasks, _⟩ := h
  exact ⟨done, step, more, hsteps, hasks⟩

/-- What the steps tell of a stream. -/
inductive Tells (source : String) (done : List Step) (index : Nat) : Option TokenStream → Prop where
  | unopened : opened done ≤ index → Tells source done index none
  | fresh : index < opened done → ¬ Asked done index → Tells source done index (some .fresh)
  | running : Asked done index → ¬ Ended source done index →
      Tells source done index (some .running)
  | ended : Ended source done index → Tells source done index (some .ended)

namespace Tells

variable {index : Nat} {stream : Option TokenStream}

theorem fresh_iff (h : Tells source done index stream) :
    stream = some .fresh ↔ index < opened done ∧ ¬ Asked done index := by
  cases h with
  | unopened hle => simp [Nat.not_lt.mpr hle]
  | fresh hlt hasked => simp [hlt, hasked]
  | running hasked _ => simp [hasked]
  | ended hended => simp [hended.asked]

theorem ended_iff (h : Tells source done index stream) :
    stream = some .ended ↔ Ended source done index := by
  cases h with
  | unopened hle =>
      have hended : ¬ Ended source done index := fun h => absurd h.asked.lt_opened (by omega)
      simp [hended]
  | fresh _ hasked =>
      have hended : ¬ Ended source done index := fun h => hasked h.asked
      simp [hended]
  | running _ hended => simp [hended]
  | ended hended => simp [hended]

theorem isSome_iff (h : Tells source done index stream) :
    stream.isSome = true ↔ index < opened done := by
  cases h with
  | unopened hle => simp [hle]
  | fresh hlt _ => simp [hlt]
  | running hasked _ => simp [hasked.lt_opened]
  | ended hended => simp [hended.asked.lt_opened]

/-- One more step tells nothing new of a stream that it does not ask. -/
theorem concat_of_not_asks (h : Tells source done index stream) {step : Step}
    (hasks : ¬ Asks index done step) (hopened : stream = none → opened (done ++ [step]) ≤ index) :
    Tells source (done ++ [step]) index stream := by
  have hasked : Asked (done ++ [step]) index ↔ Asked done index :=
    happened_concat.trans (or_iff_left hasks)
  have hended : Ended source (done ++ [step]) index ↔ Ended source done index :=
    happened_concat.trans (or_iff_left fun hends => hasks hends.1)
  cases h with
  | unopened _ => exact .unopened (hopened rfl)
  | fresh hlt hfresh =>
      refine .fresh (Nat.lt_of_lt_of_le hlt ?_) (mt hasked.mp hfresh)
      rw [opened_concat]
      exact Nat.le_add_right ..
  | running hrunning hgoing => exact .running (hasked.mpr hrunning) (mt hended.mp hgoing)
  | ended hover => exact .ended (hended.mpr hover)

/-- A step that asks a stream tells whether it has ended. -/
theorem concat_of_asks {step : Step} (hasks : Asks index done step)
    (hended : Ended source done index →
      (((ofText source).performAll done).perform step).1.tellsEnd = true) :
    Tells source (done ++ [step]) index (some
      (if (((ofText source).performAll done).perform step).1.tellsEnd then .ended
      else .running)) := by
  split
  · rename_i htells
    exact .ended (happened_concat.mpr (Or.inr ⟨hasks, htells⟩))
  · rename_i htells
    refine .running (happened_concat.mpr (Or.inr hasks)) fun h => ?_
    rcases happened_concat.mp h with hbefore | ⟨_, hnow⟩
    · exact htells (hended hbefore)
    · exact htells hnow

end Tells

/-- The scanner is where the steps take it, and its record of each stream is what they tell. -/
structure Recorded (source : String) (done : List Step) (s : Scanner) : Prop where
  state_eq : s = (ofText source).performAll done
  stream (index : Nat) : Tells source done index s.streams[index]?

theorem recorded_ofText (source : String) : Recorded source [] (ofText source) :=
  ⟨rfl, fun index => .unopened (Nat.zero_le index)⟩

theorem Recorded.length_eq (h : Recorded source done s) : s.streams.length = opened done := by
  have hsame (index : Nat) : index < s.streams.length ↔ index < opened done := by
    rw [← (h.stream index).isSome_iff]
    simp
  apply Nat.le_antisymm
  · exact Nat.le_of_not_lt fun hlt => Nat.lt_irrefl _ ((hsame _).mp hlt)
  · exact Nat.le_of_not_lt fun hlt => Nat.lt_irrefl _ ((hsame _).mpr hlt)

/-- What a step that asks a stream does to it is what it tells. -/
theorem Recorded.tells_asked (h : Recorded source done s) {step : Step} {index : Nat}
    (hstep : step.stream? = some index) :
    Tells source (done ++ [step]) index (s.perform step).2.streams[index]? := by
  have hstream := h.stream index
  rw [stream_asked hstep]
  by_cases hlt : index < opened done
  · obtain ⟨stream, hopen⟩ := Option.isSome_iff_exists.mp (hstream.isSome_iff.mpr hlt)
    have hended : Ended source done index → (s.perform step).1.tellsEnd = true :=
      fun hover => tellsEnd_of_ended hstep (hstream.ended_iff.mpr hover)
    rw [hopen]
    rw [h.state_eq] at hended ⊢
    exact .concat_of_asks ⟨hstep, hlt⟩ hended
  · have hnone : s.streams[index]? = none :=
      Option.not_isSome_iff_eq_none.mp (mt hstream.isSome_iff.mp hlt)
    have hopens : step.opensStream = false := by
      cases step <;> first | rfl | cases hstep
    rw [hnone] at hstream ⊢
    refine hstream.concat_of_not_asks (fun hasks => hlt hasks.2) fun _ => ?_
    rw [opened_concat, hopens]
    exact Nat.le_of_not_lt hlt

/-- A stream that is opened comes behind the others and is fresh. -/
theorem Recorded.tells_opened (h : Recorded source done s) (index : Nat) :
    Tells source (done ++ [.openStream]) index (s.streams ++ [.fresh])[index]? := by
  have hasks : ¬ Asks index done .openStream := by
    rintro ⟨hnone, _⟩
    cases hnone
  rcases Nat.lt_trichotomy index s.streams.length with hlt | rfl | hgt
  · rw [List.getElem?_append_left hlt]
    refine (h.stream index).concat_of_not_asks hasks fun hnone => ?_
    exact absurd hlt (Nat.not_lt.mpr (List.getElem?_eq_none_iff.mp hnone))
  · rw [List.getElem?_concat_length]
    refine .fresh ?_ fun hasked => ?_
    · rw [opened_concat, h.length_eq]
      exact Nat.lt_succ_self _
    · rcases happened_concat.mp hasked with hbefore | hnow
      · exact Nat.ne_of_lt (Asked.lt_opened hbefore) h.length_eq
      · exact hasks hnow
  · rw [List.getElem?_eq_none (by simp; omega)]
    refine .unopened ?_
    rw [opened_concat, ← h.length_eq]
    exact hgt

/-- The record goes on to follow the steps. -/
theorem Recorded.perform (h : Recorded source done s) (step : Step) :
    Recorded source (done ++ [step]) (s.perform step).2 := by
  constructor
  · rw [h.state_eq, performAll, performAll, List.foldl_append]
    rfl
  intro index
  by_cases hstep : step.stream? = some index
  · exact h.tells_asked hstep
  cases hopens : step.opensStream with
  | true =>
      obtain rfl : step = .openStream := by
        cases step <;> first | rfl | cases hopens
      exact h.tells_opened index
  | false =>
      rw [stream_other hopens hstep]
      refine (h.stream index).concat_of_not_asks (fun hasks => hstep hasks.1) fun hnone => ?_
      rw [opened_concat, hopens]
      exact Nat.le_of_not_lt (mt (h.stream index).isSome_iff.mpr (by simp [hnone]))

theorem Recorded.performAll (h : Recorded source done s) (steps : List Step) :
    Recorded source (done ++ steps) (s.performAll steps) := by
  induction steps generalizing done s with
  | nil => rwa [List.append_nil]
  | cons step steps ih =>
      rw [← List.singleton_append, ← List.append_assoc]
      exact ih (h.perform step)

theorem recorded_performAll (source : String) (steps : List Step) :
    Recorded source steps ((ofText source).performAll steps) :=
  (recorded_ofText source).performAll steps

theorem Recorded.source_eq (h : Recorded source done s) : s.source = source.toList := by
  rw [h.state_eq]
  exact ((tracks_ofText source).performAll done).source_eq

theorem Recorded.restarts_iff (h : Recorded source done s) {step : Step} :
    Restarts done step ↔ ∃ index, step.stream? = some index ∧ s.streams[index]? = some .fresh := by
  apply exists_congr
  intro index
  rw [(h.stream index).fresh_iff, Asks, and_assoc]

theorem Recorded.exists_enter? (h : Recorded source done s) {index : Nat}
    (hlt : index < opened done) (hgoing : ¬ Ended source done index) :
    ∃ entered, s.enter? index = some entered := by
  have hstream := h.stream index
  generalize hflag : s.streams[index]? = stream at hstream
  cases hstream with
  | unopened hle => exact absurd hlt (Nat.not_lt.mpr hle)
  | fresh => exact ⟨_, enter?_fresh hflag⟩
  | running => exact ⟨_, enter?_running hflag⟩
  | ended hended => exact absurd hended hgoing

end History

section Laps

variable {source : String} {done : List Step} {s : Scanner}

/-- What is delivered was ahead, and what is ahead then is the rest of it. -/
theorem perform_of_enter {index : Nat} {entered : Scanner} (h : s.enter? index = some entered)
    {step : Step} (hstep : step.stream? = some index) :
    (s.perform step).1.tokens ++ (s.perform step).2.ahead = entered.ahead := by
  cases step with
  | next =>
      obtain rfl := Option.some.inj hstep
      obtain ⟨htoken, hrest⟩ := next_of_enter h
      simp only [perform, Answer.tokens, htoken, hrest]
      cases entered.ahead <;> rfl
  | drain =>
      obtain rfl := Option.some.inj hstep
      obtain ⟨htokens, hrest⟩ := drain_of_enter h
      simp only [perform, Answer.tokens, htokens, hrest, List.append_nil]
  | _ => cases hstep

theorem perform_of_enter?_eq_none {index : Nat} (h : s.enter? index = none) {step : Step}
    (hstep : step.stream? = some index) :
    (s.perform step).1.tokens = [] ∧ (s.perform step).2 = s := by
  cases step with
  | next =>
      obtain rfl := Option.some.inj hstep
      rw [perform, next_of_enter?_eq_none h]
      exact ⟨rfl, rfl⟩
  | drain =>
      obtain rfl := Option.some.inj hstep
      rw [perform, drain_of_enter?_eq_none h]
      exact ⟨rfl, rfl⟩
  | _ => cases hstep

theorem Recorded.perform_restart (h : Recorded source done s) {step : Step}
    (hrestarts : Restarts done step) :
    (s.perform step).1.tokens ++ (s.perform step).2.ahead = tokenize source := by
  obtain ⟨index, hstep, hfresh⟩ := h.restarts_iff.mp hrestarts
  rw [perform_of_enter (enter?_fresh hfresh) hstep, ahead_restarted h.source_eq]

/-- A stream that was asked before finds the scanner where it is. -/
theorem Recorded.enter?_of_not_restarts (h : Recorded source done s) {step : Step} {index : Nat}
    {entered : Scanner} (hgoes : ¬ Restarts done step) (hstep : step.stream? = some index)
    (hentered : s.enter? index = some entered) : entered = s := by
  unfold enter? at hentered
  split at hentered
  · rename_i hfresh
    exact absurd (h.restarts_iff.mpr ⟨index, hstep, hfresh⟩) hgoes
  · exact (Option.some.inj hentered).symm
  · cases hentered
  · cases hentered

theorem Recorded.perform_goesOn (h : Recorded source done s) {step : Step}
    (hstreams : step.onStreams = true) (hgoes : ¬ Restarts done step) :
    (s.perform step).1.tokens ++ (s.perform step).2.ahead = s.ahead := by
  cases hstep : step.stream? with
  | none =>
      cases step with
      | openStream => rfl
      | next | drain => cases hstep
      | _ => cases hstreams
  | some index =>
      cases hentered : s.enter? index with
      | none =>
          obtain ⟨htokens, hsame⟩ := perform_of_enter?_eq_none hentered hstep
          rw [htokens, hsame, List.nil_append]
      | some entered =>
          rw [perform_of_enter hentered hstep, h.enter?_of_not_restarts hgoes hstep hentered]

/-- Without a restart, nothing ahead is lost and nothing comes back. -/
theorem Recorded.deliveries_goesOn (h : Recorded source done s) {steps : List Step}
    (hgoes : GoesOn done steps) :
    s.deliveries steps ++ (s.performAll steps).ahead = s.ahead := by
  induction steps generalizing done s with
  | nil => rfl
  | cons step steps ih =>
      obtain ⟨hstreams, hstep, hsteps⟩ := hgoes
      rw [deliveries, List.append_assoc, ← h.perform_goesOn hstreams hstep]
      exact congrArg _ (ih (h.perform step) hsteps)

/-- What a lap has delivered, and what is then ahead, are the tokens of the text. -/
theorem Recorded.deliveries_lap (h : Recorded source done s) {lap : List Step}
    (hlap : IsLap done lap) :
    s.deliveries lap ++ (s.performAll lap).ahead = tokenize source := by
  cases lap with
  | nil => exact hlap.elim
  | cons first more =>
      obtain ⟨hfirst, hmore⟩ := hlap
      rw [deliveries, List.append_assoc, ← h.perform_restart hfirst]
      exact congrArg _ ((h.perform first).deliveries_goesOn hmore)

theorem deliveries_append (s : Scanner) (steps more : List Step) :
    s.deliveries (steps ++ more) = s.deliveries steps ++ (s.performAll steps).deliveries more := by
  induction steps generalizing s with
  | nil => rfl
  | cons step steps ih =>
      rw [List.cons_append, deliveries, deliveries, ih, List.append_assoc]
      rfl

theorem goesOn_append {steps more : List Step} :
    GoesOn done (steps ++ more) ↔ GoesOn done steps ∧ GoesOn (done ++ steps) more := by
  induction steps generalizing done with
  | nil => simp [GoesOn]
  | cons step steps ih =>
      rw [List.cons_append, GoesOn, GoesOn, ih, and_assoc, and_assoc, List.append_assoc]
      rfl

/-- Whichever stream is asked last in a lap finds ahead what the lap has not delivered yet. -/
theorem Recorded.deliveries_before_last (h : Recorded source done s) {lap : List Step} {last : Step}
    (hlap : IsLap done (lap ++ [last])) {index : Nat} (hlast : last.stream? = some index)
    {entered : Scanner} (hentered : (s.performAll lap).enter? index = some entered) :
    s.deliveries lap ++ entered.ahead = tokenize source := by
  cases lap with
  | nil =>
      obtain ⟨other, hother, hfresh⟩ := h.restarts_iff.mp hlap.1
      obtain rfl := Option.some.inj (hother.symm.trans hlast)
      obtain rfl := Option.some.inj ((enter?_fresh hfresh).symm.trans hentered)
      exact ahead_restarted h.source_eq other
  | cons first more =>
      obtain ⟨hfirst, hrest⟩ := hlap
      obtain ⟨hmore, _, hgoes, _⟩ := goesOn_append.mp hrest
      have hrecorded := (h.perform first).performAll more
      obtain rfl := hrecorded.enter?_of_not_restarts hgoes hlast hentered
      exact h.deliveries_lap ⟨hfirst, hmore⟩

/-- A stream that is asked in a lap reports its end if the lap has delivered all tokens or the stream
had ended before, and in no other case. -/
theorem Recorded.next_eq_none_iff (h : Recorded source done s) {lap : List Step} {index : Nat}
    (hlt : index < opened (done ++ lap)) (hlap : IsLap done (lap ++ [.next index])) :
    ((s.performAll lap).next index).1 = none ↔
      s.deliveries lap = tokenize source ∨ Ended source (done ++ lap) index := by
  have hrecorded := h.performAll lap
  by_cases hended : Ended source (done ++ lap) index
  · have hclosed := enter?_ended (((hrecorded.stream index).ended_iff).mpr hended)
    rw [next_of_enter?_eq_none hclosed]
    exact ⟨fun _ => Or.inr hended, fun _ => rfl⟩
  · obtain ⟨entered, hentered⟩ := hrecorded.exists_enter? hlt hended
    have htokens := h.deliveries_before_last hlap rfl hentered
    rw [(next_of_enter hentered).1, List.head?_eq_none_iff, ← htokens, or_iff_left hended]
    exact List.self_eq_append_right.symm

theorem Recorded.drain_delivers_rest (h : Recorded source done s) {lap : List Step} {index : Nat}
    (hlt : index < opened (done ++ lap)) (hlap : IsLap done (lap ++ [.drain index])) :
    s.deliveries (lap ++ [.drain index]) = tokenize source ∨
      Ended source (done ++ lap) index := by
  by_cases hended : Ended source (done ++ lap) index
  · exact Or.inr hended
  · obtain ⟨entered, hentered⟩ := (h.performAll lap).exists_enter? hlt hended
    have htokens := h.deliveries_before_last hlap rfl hentered
    refine Or.inl ?_
    rw [deliveries_append, ← htokens, deliveries, deliveries, List.append_nil, Scanner.perform,
      Answer.tokens, (drain_of_enter hentered).1]

theorem Ended.append {steps : List Step} {index : Nat} (h : Ended source steps index)
    (more : List Step) : Ended source (steps ++ more) index := by
  obtain ⟨done, step, behind, rfl, hends⟩ := h
  exact ⟨done, step, behind ++ more, by simp, hends⟩

end Laps

/-- Streams that share a scanner share one pass over its tokens. Whatever was done before, from one
restart up to the next the streams together deliver the tokens of the text from the first one on, none
twice and none left out; asked for a token, a stream reports its end exactly if all of them are
delivered or it had ended before, and draining it delivers all that are left; a stream that has ended
stays so, whatever is done, and asking it moves nothing. In particular draining a stream that was
never asked delivers all tokens. -/
theorem streams_share_one_pass (source : String) (before : List Step) :
    let s := (ofText source).performAll before
    (∀ lap, IsLap before lap → s.deliveries lap <+: tokenize source) ∧
    (∀ lap index, index < opened (before ++ lap) →
      (IsLap before (lap ++ [.next index]) →
        (((s.performAll lap).next index).1 = none ↔
          s.deliveries lap = tokenize source ∨ Ended source (before ++ lap) index)) ∧
      (IsLap before (lap ++ [.drain index]) →
        s.deliveries (lap ++ [.drain index]) = tokenize source ∨
          Ended source (before ++ lap) index)) ∧
    (∀ index, Ended source before index → ∀ steps,
      let later := s.performAll steps
      later.next index = (none, later) ∧ later.drain index = ([], later)) ∧
    ∀ index, index < opened before → ¬ Asked before index →
      (s.drain index).1 = tokenize source := by
  intro s
  have hrecorded : Recorded source before s := recorded_performAll source before
  refine ⟨fun lap hlap => ⟨_, hrecorded.deliveries_lap hlap⟩,
    fun lap index hlt => ⟨hrecorded.next_eq_none_iff hlt, hrecorded.drain_delivers_rest hlt⟩,
    fun index hended steps => ?_, fun index hlt hasked => ?_⟩
  · have hstream := (hrecorded.performAll steps).stream index
    have hclosed := enter?_ended (hstream.ended_iff.mpr (hended.append steps))
    exact ⟨next_of_enter?_eq_none hclosed, drain_of_enter?_eq_none hclosed⟩
  · have hfresh := (hrecorded.stream index).fresh_iff.mpr ⟨hlt, hasked⟩
    rw [(drain_of_enter (enter?_fresh hfresh)).1, ahead_restarted hrecorded.source_eq]

/-- Two streams take turns on `a b` after the first one alone has read `a`; the second one starts
over, and the first one then finds nothing left. When a third one starts over, the first stays
ended. -/
theorem streams_share_one_pass_turns :
    let before : List Step := [.openStream, .openStream, .openStream, .next 0]
    let lap : List Step := [.next 1, .next 0, .next 0]
    let s := (ofText "a b").performAll before
    IsLap before lap ∧ s.deliveries lap <+: tokenize "a b" ∧
      ((s.performAll [.next 1, .next 0]).next 0).1 = none ∧
      Ended "a b" (before ++ lap) 0 ∧
      let later := ((ofText "a b").performAll (before ++ lap)).performAll [.next 2]
      later.next 0 = (none, later) := by
  intro before lap s
  have hstream (steps : List Step) := (recorded_performAll "a b" steps).stream
  have hrestarts : Restarts before (.next 1) :=
    (recorded_performAll "a b" before).restarts_iff.mpr ⟨1, rfl, by decide⟩
  have hlap : IsLap before lap := by
    refine ⟨hrestarts, rfl, ?_, rfl, ?_, trivial⟩
    all_goals
      rw [(recorded_performAll "a b" _).restarts_iff]
      rintro ⟨index, hindex, hfresh⟩
      obtain rfl := Option.some.inj hindex
      revert hfresh
      decide
  obtain ⟨hdelivers, hends, _⟩ := streams_share_one_pass "a b" before
  have hnone : ((s.performAll [.next 1, .next 0]).next 0).1 = none :=
    ((hends [.next 1, .next 0] 0 (by decide)).1 hlap).mpr (Or.inl rfl)
  have hended : Ended "a b" (before ++ lap) 0 := (hstream (before ++ lap) 0).ended_iff.mp (by decide)
  exact ⟨hlap, hdelivers lap hlap, hnone, hended,
    ((streams_share_one_pass "a b" (before ++ lap)).2.2.1 0 hended [.next 2]).1⟩

end Glass.Scanner
