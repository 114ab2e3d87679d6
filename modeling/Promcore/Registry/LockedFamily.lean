import Promcore.Library.CriticalSections
import Promcore.Registry.LabelSets

/-!
# Families shared by several threads

The private `Add` inserts the metric first and looks at its labels afterwards;
while it holds the lock the map can contain a label set that is not accepted.
No other call ever sees that.
-/

namespace Promcore.Family

open CriticalSections

variable {T : MetricKind}

/-- A call that takes the lock of the family. The object of an `Add` is made
before. -/
inductive Call (T : MetricKind) where
  | add (labels : Labels) (address : ℕ) (object : T.Object)
  | remove (metric : Option ℕ)
  | has (labels : Labels)

inductive Answer where
  | added (result : Except Exception ℕ)
  | removed
  | found (present : Bool)

/-- What is left to do under the lock. -/
inductive Position (T : MetricKind) where
  | insert (labels : Labels) (address : ℕ) (object : T.Object)
  | check (labels : Labels) (address : ℕ) (label_names : List Str)
  | search (metric : Option ℕ) (i : ℕ)
  | count (labels : Labels)
  | finished (answer : Answer)

def prelude : Call T → Family T → Answer ⊕ Position T
  | .add labels address object, _ => .inr (.insert labels address object)
  | .remove metric, _ => .inr (.search metric 0)
  | .has labels, _ => .inr (.count labels)

/-- `metrics_.erase` at the position of the labels. -/
def eraseLabels (f : Family T) (labels : Labels) : Family T :=
  { f with metrics_ := f.metrics_.filter fun entry => entry.labels ≠ labels }

/-- One step under the lock. -/
inductive Work : Family T → Position T → Family T → Position T → Prop
  | present {f : Family T} {labels : Labels} {address : ℕ} {object : T.Object} {entry : Entry T}
      (hfind : f.find labels = some entry) :
      Work f (.insert labels address object) f (.finished (.added (.ok entry.address)))
  | insert {f : Family T} {labels : Labels} {address : ℕ} {object : T.Object}
      (hfind : f.find labels = none) :
      Work f (.insert labels address object)
        { f with metrics_ := f.metrics_ ++ [⟨labels, address, object⟩] }
        (.check labels address labels.names)
  | invalid {f : Family T} {labels : Labels} {address : ℕ} {label_name : Str}
      {label_names : List Str} (hinvalid : checkLabelName label_name T.metricType = false) :
      Work f (.check labels address (label_name :: label_names)) (f.eraseLabels labels)
        (.finished (.added (.error (.invalid_argument "Invalid label name"))))
  | duplicate {f : Family T} {labels : Labels} {address : ℕ} {label_name : Str}
      {label_names : List Str} (hvalid : checkLabelName label_name T.metricType = true)
      (hcount : f.constant_labels_.count label_name = true) :
      Work f (.check labels address (label_name :: label_names)) (f.eraseLabels labels)
        (.finished (.added (.error (.invalid_argument "Duplicate label name"))))
  | next {f : Family T} {labels : Labels} {address : ℕ} {label_name : Str}
      {label_names : List Str} (hvalid : checkLabelName label_name T.metricType = true)
      (hcount : f.constant_labels_.count label_name = false) :
      Work f (.check labels address (label_name :: label_names)) f
        (.check labels address label_names)
  | accept {f : Family T} {labels : Labels} {address : ℕ} :
      Work f (.check labels address []) f (.finished (.added (.ok address)))
  | erase {f : Family T} {metric : Option ℕ} {i : ℕ} {entry : Entry T}
      (hentry : f.metrics_[i]? = some entry) (haddress : some entry.address = metric) :
      Work f (.search metric i) { f with metrics_ := f.metrics_.eraseIdx i } (.finished .removed)
  | skip {f : Family T} {metric : Option ℕ} {i : ℕ} {entry : Entry T}
      (hentry : f.metrics_[i]? = some entry) (haddress : some entry.address ≠ metric) :
      Work f (.search metric i) f (.search metric (i + 1))
  | absent {f : Family T} {metric : Option ℕ} :
      Work f (.search metric f.metrics_.length) f (.finished .removed)
  | count {f : Family T} {labels : Labels} :
      Work f (.count labels) f (.finished (.found (f.has labels)))

def Position.result : Position T → Option Answer
  | .finished answer => some answer
  | _ => none

def machine : Machine (Family T) (Call T) (Position T) Answer where
  prelude := prelude
  work := Work
  result := Position.result

/-- A whole call that nothing interrupts. -/
def Call.whole : Call T → Family T → Answer × Family T
  | .add labels address object, f =>
      (.added (f.addObject labels address object).1, (f.addObject labels address object).2)
  | .remove metric, f => (.removed, f.remove metric)
  | .has labels, f => (.found (f.has labels), f)

section Finish

/-- What the loop over the label names comes to. -/
def checked (f : Family T) (labels : Labels) (address : ℕ) (label_names : List Str) :
    Answer × Family T :=
  match f.checkLabels label_names with
  | some exception => (.added (.error exception), f.eraseLabels labels)
  | none => (.added (.ok address), f)

/-- What a section comes to from a position on. -/
def Position.finish : Position T → Family T → Option (Answer × Family T)
  | .insert labels address object, f => some ((Call.add labels address object).whole f)
  | .check labels address label_names, f => some (f.checked labels address label_names)
  | .search metric i, f => some (.removed,
      { f with metrics_ := f.metrics_.take i ++
                 (f.metrics_.drop i).eraseP fun entry => some entry.address = metric })
  | .count labels, f => some (.found (f.has labels), f)
  | .finished answer, f => some (answer, f)

variable {f f' : Family T} {k k' : Position T}

theorem add_of_find_none {labels : Labels} {address : ℕ} {object : T.Object}
    (hfind : f.find labels = none) :
    (Call.add labels address object).whole f =
      checked { f with metrics_ := f.metrics_ ++ [⟨labels, address, object⟩] } labels address
        labels.names := by
  have hcheck : Family.checkLabels { f with metrics_ := f.metrics_ ++ [⟨labels, address, object⟩] }
      labels.names = f.checkLabels labels.names := by
    induction labels.names with
    | nil => rfl
    | cons name names ih => rw [checkLabels, checkLabels, ih]
  rw [Call.whole, addObject, hfind, checked, hcheck]
  cases f.checkLabels labels.names <;> rfl

/-- A step of the section keeps what the section comes to. -/
theorem Work.finish (hwork : Work f k f' k') : k'.finish f' = k.finish f := by
  cases hwork with
  | present hfind =>
      rw [Position.finish, Position.finish, Call.whole, addObject, hfind]
  | insert hfind => rw [Position.finish, Position.finish, add_of_find_none hfind]
  | invalid hinvalid =>
      rw [Position.finish, Position.finish, checked, checkLabels, hinvalid]
      rfl
  | duplicate hvalid hcount =>
      rw [Position.finish, Position.finish, checked, checkLabels, hvalid, hcount]
      rfl
  | next hvalid hcount =>
      rw [Position.finish, Position.finish, checked, checked, checkLabels, hvalid, hcount]
      rfl
  | accept => rfl
  | @erase metric i entry hentry haddress =>
      obtain ⟨hi, rfl⟩ := List.getElem?_eq_some_iff.mp hentry
      have herase : ((f.metrics_[i] :: f.metrics_.drop (i + 1)).eraseP fun entry =>
          some entry.address = metric) = f.metrics_.drop (i + 1) :=
        List.eraseP_cons_of_pos (decide_eq_true haddress)
      rw [Position.finish, Position.finish, List.drop_eq_getElem_cons hi, herase,
        List.eraseIdx_eq_take_drop_succ]
  | @skip metric i entry hentry haddress =>
      obtain ⟨hi, rfl⟩ := List.getElem?_eq_some_iff.mp hentry
      have hkeep : ((f.metrics_[i] :: f.metrics_.drop (i + 1)).eraseP fun entry =>
          some entry.address = metric) = f.metrics_[i] ::
            (f.metrics_.drop (i + 1)).eraseP fun entry => some entry.address = metric :=
        List.eraseP_cons_of_neg (by simpa using haddress)
      rw [Position.finish, Position.finish, List.drop_eq_getElem_cons hi, hkeep,
        List.take_succ_eq_append_getElem hi, List.append_assoc, List.singleton_append]
  | absent => simp [Position.finish]
  | count => rfl

theorem machine_finishes : (machine (T := T)).Finishes Position.finish where
  work hwork := Work.finish hwork
  prelude _ call := by cases call <;> rfl
  result {s k r} hresult := by
    cases k with
    | finished answer =>
        cases hresult
        rfl
    | _ => cases hresult

/-- The sections come to what the functions of the class do. -/
theorem effect_eq_whole (call : Call T) (f : Family T) :
    machine.effect Position.finish call f = some (call.whole f) := by
  cases call <;> rfl

end Finish

section Threads

variable {θ : Type} [DecidableEq θ] {f : Family T}

/-- The family after a list of calls, in order. -/
def runCalls (f : Family T) (calls : List (Call T)) : Family T :=
  calls.foldl (fun f call => (call.whole f).2) f

/-- The calls that ended, in order. -/
def callsMade (ended : List (θ × Call T × Answer)) : List (Call T) := ended.map fun c => c.2.1

theorem LabelsSound.whole (h : f.LabelsSound) (call : Call T) :
    (call.whole f).2.LabelsSound ∧ (call.whole f).2.constant_labels_ = f.constant_labels_ := by
  cases call with
  | add labels address object =>
      rcases f.addObject_cases labels address object with ⟨entry, -, hadd⟩ |
        ⟨-, -, exception, hadd⟩ | ⟨hfind, haccepts, hadd⟩
      · rw [Call.whole, hadd]
        exact ⟨h, rfl⟩
      · rw [Call.whole, hadd]
        exact ⟨h, rfl⟩
      · rw [Call.whole, hadd]
        have hsets : labelSets { f with metrics_ := f.metrics_ ++ [⟨labels, address, object⟩] } =
            f.labelSets ++ [labels] := by simp [labelSets]
        refine ⟨⟨?_, ?_⟩, rfl⟩
        · rw [hsets, List.nodup_append']
          exact ⟨h.distinct, List.nodup_singleton labels,
            List.disjoint_singleton.mpr ((f.find_eq_none_iff labels).mp hfind)⟩
        · intro labels' hlabels'
          rw [hsets] at hlabels'
          rcases List.mem_append.mp hlabels' with hlabels' | hlabels'
          · exact h.accepted labels' hlabels'
          · rwa [List.mem_singleton.mp hlabels']
  | remove metric => exact ⟨h.step (.remove f metric), rfl⟩
  | has labels => exact ⟨h, rfl⟩

theorem LabelsSound.runCalls (h : f.LabelsSound) (calls : List (Call T)) :
    (f.runCalls calls).LabelsSound ∧ (f.runCalls calls).constant_labels_ = f.constant_labels_ := by
  induction calls generalizing f with
  | nil => exact ⟨h, rfl⟩
  | cons call calls ih =>
      obtain ⟨hsound, hconstant⟩ := h.whole call
      obtain ⟨hrest, hsame⟩ := ih hsound
      exact ⟨hrest, hsame.trans hconstant⟩

/-- A label set that is there is accepted. -/
theorem LabelsSound.accepts_of_has (h : f.LabelsSound) {labels : Labels}
    (hhas : f.has labels = true) : f.Accepts labels := by
  apply h.accepted
  by_contra hnew
  rw [has, (f.find_eq_none_iff labels).mpr hnew] at hhas
  cases hhas

/-- However the threads interleave, every call has the answer that it has on the
family left by the calls that ended before it, one after the other. When the
lock is free all label sets are accepted, and `Has` finds no others, although an
`Add` inserts before it looks. -/
theorem family_serial {start s : Shared θ (Family T) (Call T) (Position T)}
    {ended : List (θ × Call T × Answer)} (hidle : start.Idle) (hsound : start.object.LabelsSound)
    (h : LabelledSteps.Steps (Step machine) start ended s) :
    (∀ before t call answer after, ended = before ++ (t, call, answer) :: after →
      answer = (call.whole (start.object.runCalls (callsMade before))).1) ∧
    (s.lock = none → s.object = start.object.runCalls (callsMade ended) ∧ s.object.LabelsSound) ∧
    (∀ t labels, (t, .has labels, .found true) ∈ ended → start.object.Accepts labels) ∧
    (∀ t, callsOf t ended ++ (s.threads t).calls = (start.threads t).calls) ∧
    ∀ t u k k' calls calls', s.threads t = ⟨.inside k, calls⟩ → s.threads u = ⟨.inside k', calls'⟩ →
      t = u := by
  obtain ⟨base, hordered⟩ := ordered machine_finishes hidle h
  have hanswers : ∀ before t call answer after, ended = before ++ (t, call, answer) :: after →
      answer = (call.whole (start.object.runCalls (callsMade before))).1 := by
    rintro before t call answer after rfl
    exact hordered.serial.result_eq effect_eq_whole
  refine ⟨hanswers, ?_, ?_, hordered.calls, ?_⟩
  · intro hfree
    have hrun : s.object = start.object.runCalls (callsMade ended) :=
      (hordered.free hfree).trans (hordered.serial.foldl_eq effect_eq_whole)
    exact ⟨hrun, hrun ▸ (hsound.runCalls _).1⟩
  · intro t labels hmem
    obtain ⟨before, after, hsplit⟩ := List.append_of_mem hmem
    obtain ⟨hbefore, hconstant⟩ := hsound.runCalls (callsMade before)
    have hfound := hanswers before t _ _ after hsplit
    have haccepts := hbefore.accepts_of_has (Answer.found.inj hfound).symm
    simpa only [Accepts, hconstant] using haccepts
  · intro t u k k' calls calls' ht hu
    exact hordered.inside_unique ht hu

/-- The label name `0` is not valid. -/
def digitLabels : Labels := ⟨[(['0'], [])], by decide⟩

/-- A thread whose `Add` is refused while another one asks for its labels. -/
def refusedAndAsked : Shared Bool (Family .gaugeInt) (Call .gaugeInt) (Position .gaugeInt) where
  object := ⟨1, [], "level".toList, [], ⟨[], Labels.sorted_nil⟩, rfl, by decide⟩
  lock := none
  threads t := ⟨.outside, if t then [.has digitLabels]
    else [.add digitLabels 10 (GaugeType.new (0 : Int64))]⟩

/-- The labels are asked for while they are in the map, and not found. -/
theorem family_serial_refused : ∃ present,
    Answer.found present = ((Call.has digitLabels).whole (refusedAndAsked.object.runCalls
      [.add digitLabels 10 (GaugeType.new (0 : Int64))])).1 := by
  have hrun : ∃ s exception present, LabelledSteps.Steps (Step machine) refusedAndAsked
      [(false, .add digitLabels 10 (GaugeType.new (0 : Int64)), .added (.error exception)),
        (true, .has digitLabels, .found present)] s :=
    ⟨_, _, _, .silent (.prepare (t := false) rfl rfl) <| .silent (.acquire (t := false) rfl rfl) <|
      .silent (.work (t := false) rfl (.insert rfl)) <| .silent (.prepare (t := true) rfl rfl) <|
      .silent (.work (t := false) rfl (.invalid rfl)) <| .shown (.release (t := false) rfl rfl) <|
      .silent (.acquire (t := true) rfl rfl) <| .silent (.work (t := true) rfl .count) <|
      .shown (.release (t := true) rfl rfl) <| .refl _⟩
  obtain ⟨s, exception, present, hs⟩ := hrun
  have hsound : refusedAndAsked.object.LabelsSound :=
    ⟨List.nodup_nil, fun labels hlabels => absurd hlabels List.not_mem_nil⟩
  exact ⟨present, (family_serial ⟨rfl, fun _ => rfl⟩ hsound hs).1
    [(false, .add digitLabels 10 (GaugeType.new (0 : Int64)), .added (.error exception))] true
    (.has digitLabels) (.found present) [] rfl⟩

end Threads

end Promcore.Family
