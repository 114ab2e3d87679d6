import Promcore.Library.CriticalSections
import Promcore.Registry.NameMap

/-!
# Threads that register and remove families

`Add` looks through the vectors of the other types, then through its own, and
only then makes a family; all of that under the registry's mutex. So threads
that race to register the same name end up with one family.
-/

namespace Promcore.Registry

open CriticalSections

/-- A call that takes the lock of the registry. -/
inductive Request where
  | add {T : MetricKind} (address : ℕ) (b : Builder T)
  | remove (T : MetricKind) (family : ℕ)

inductive Reply where
  | added (result : Except Exception ℕ)
  | removed (found : Bool)

/-- What is left to do under the lock. -/
inductive Place where
  /-- `FamilyNameExists` has still to look through the vectors of these types. -/
  | names {T : MetricKind} (address : ℕ) (b : Builder T) (types : List MetricKind)
  | search {T : MetricKind} (address : ℕ) (b : Builder T) (i : ℕ)
  | create {T : MetricKind} (address : ℕ) (b : Builder T)
  | look (T : MetricKind) (family : ℕ) (i : ℕ)
  | finished (reply : Reply)

def Request.prelude : Request → Registry → Reply ⊕ Place
  | @Request.add T address b, _ => .inr (.names address b (kinds.filter fun T' => T' ≠ T))
  | .remove T family, _ => .inr (.look T family 0)

/-- One step under the lock. -/
inductive Work : Registry → Place → Registry → Place → Prop
  | taken {r : Registry} {T T' : MetricKind} {address : ℕ} {b : Builder T}
      {types : List MetricKind}
      (hexists : familyNameExists b.name_ (r.getFamilies T') = true) :
      Work r (.names address b (T' :: types)) r (.finished (.added (.error
        (.invalid_argument "Family name already exists with different type"))))
  | untaken {r : Registry} {T T' : MetricKind} {address : ℕ} {b : Builder T}
      {types : List MetricKind}
      (hexists : familyNameExists b.name_ (r.getFamilies T') = false) :
      Work r (.names address b (T' :: types)) r (.names address b types)
  | own {r : Registry} {T : MetricKind} {address : ℕ} {b : Builder T} :
      Work r (.names address b []) r (.search address b 0)
  | skip {r : Registry} {T : MetricKind} {address : ℕ} {b : Builder T} {i : ℕ} {family : Family T}
      (hfamily : (r.getFamilies T)[i]? = some family) (hname : b.name_ ≠ family.getName) :
      Work r (.search address b i) r (.search address b (i + 1))
  | merge {r : Registry} {T : MetricKind} {address : ℕ} {b : Builder T} {i : ℕ} {family : Family T}
      (hfamily : (r.getFamilies T)[i]? = some family) (hname : b.name_ = family.getName)
      (hmode : r.insert_behavior_ = .merge) (hlabels : family.getConstantLabels = b.labels_) :
      Work r (.search address b i) r (.finished (.added (.ok family.address)))
  | differ {r : Registry} {T : MetricKind} {address : ℕ} {b : Builder T} {i : ℕ}
      {family : Family T} (hfamily : (r.getFamilies T)[i]? = some family)
      (hname : b.name_ = family.getName) (hmode : r.insert_behavior_ = .merge)
      (hlabels : family.getConstantLabels ≠ b.labels_) :
      Work r (.search address b i) r (.finished (.added (.error
        (.invalid_argument "Family name already exists with different constant labels"))))
  | throw {r : Registry} {T : MetricKind} {address : ℕ} {b : Builder T} {i : ℕ} {family : Family T}
      (hfamily : (r.getFamilies T)[i]? = some family) (hname : b.name_ = family.getName)
      (hmode : r.insert_behavior_ ≠ .merge) :
      Work r (.search address b i) r
        (.finished (.added (.error (.invalid_argument "Family name already exists"))))
  | new {r : Registry} {T : MetricKind} {address : ℕ} {b : Builder T} :
      Work r (.search address b (r.getFamilies T).length) r (.create address b)
  | invalid {r : Registry} {T : MetricKind} {address : ℕ} {b : Builder T} {exception : Exception}
      (hnew : Family.new T address b.name_ b.help_ b.labels_ = .error exception) :
      Work r (.create address b) r (.finished (.added (.error exception)))
  | push {r : Registry} {T : MetricKind} {address : ℕ} {b : Builder T} {family : Family T}
      (hnew : Family.new T address b.name_ b.help_ b.labels_ = .ok family) :
      Work r (.create address b) (r.setFamilies T (r.getFamilies T ++ [family]))
        (.finished (.added (.ok address)))
  | pass {r : Registry} {T : MetricKind} {address i : ℕ} {family : Family T}
      (hfamily : (r.getFamilies T)[i]? = some family) (haddress : family.address ≠ address) :
      Work r (.look T address i) r (.look T address (i + 1))
  | erase {r : Registry} {T : MetricKind} {address i : ℕ} {family : Family T}
      (hfamily : (r.getFamilies T)[i]? = some family) (haddress : family.address = address) :
      Work r (.look T address i) (r.setFamilies T ((r.getFamilies T).eraseIdx i))
        (.finished (.removed true))
  | absent {r : Registry} {T : MetricKind} {address : ℕ} :
      Work r (.look T address (r.getFamilies T).length) r (.finished (.removed false))

def Place.reply : Place → Option Reply
  | .finished reply => some reply
  | _ => none

def machine : Machine Registry Request Place Reply where
  prelude := Request.prelude
  work := Work
  result := Place.reply

/-- A whole call that nothing interrupts. -/
def Request.whole : Request → Registry → Reply × Registry
  | .add address b, r => (.added (b.register r address).1, (b.register r address).2)
  | .remove T family, r => (.removed (r.remove T family).1, (r.remove T family).2)

section Finish

/-- What is left of an `Add` that has found no family of its name. -/
def created {T : MetricKind} (r : Registry) (address : ℕ) (b : Builder T) : Reply × Registry :=
  match Family.new T address b.name_ b.help_ b.labels_ with
  | .error exception => (.added (.error exception), r)
  | .ok family => (.added (.ok address), r.setFamilies T (r.getFamilies T ++ [family]))

/-- What is left of an `Add` that has found this family of its type and name. -/
def met {T : MetricKind} (r : Registry) (b : Builder T) (family : Family T) : Reply × Registry :=
  if r.insert_behavior_ = .merge then
    if family.getConstantLabels = b.labels_ then (.added (.ok family.address), r)
    else (.added (.error
      (.invalid_argument "Family name already exists with different constant labels")), r)
  else (.added (.error (.invalid_argument "Family name already exists")), r)

/-- What is left of an `Add` with these families of its type to look through. -/
def searched {T : MetricKind} (r : Registry) (address : ℕ) (b : Builder T)
    (families : List (Family T)) : Reply × Registry :=
  (families.find? fun family => b.name_ = family.getName).elim (r.created address b) (r.met b)

/-- What a section comes to from a position on. -/
def Place.finish : Place → Registry → Option (Reply × Registry)
  | @Place.names T address b types, r => some
      (if types.any fun T' => familyNameExists b.name_ (r.getFamilies T') then
        (.added (.error (.invalid_argument "Family name already exists with different type")), r)
      else r.searched address b (r.getFamilies T))
  | @Place.search T address b i, r => some (r.searched address b ((r.getFamilies T).drop i))
  | .create address b, r => some (r.created address b)
  | .look T address i, r => some
      (if ((r.getFamilies T).drop i).any fun family => family.address = address then
        (.removed true, r.setFamilies T ((r.getFamilies T).take i ++
          ((r.getFamilies T).drop i).eraseP fun family => family.address = address))
      else (.removed false, r))
  | .finished reply, r => some (reply, r)

variable {r r' : Registry} {k k' : Place}

theorem drop_of_getElem? {β : Type} {l : List β} {i : ℕ} {x : β} (h : l[i]? = some x) :
    l.drop i = x :: l.drop (i + 1) := by
  obtain ⟨hi, rfl⟩ := List.getElem?_eq_some_iff.mp h
  exact List.drop_eq_getElem_cons hi

theorem searched_of_name {T : MetricKind} {address i : ℕ} {b : Builder T} {family : Family T}
    (hfamily : (r.getFamilies T)[i]? = some family) (hname : b.name_ = family.getName) :
    r.searched address b ((r.getFamilies T).drop i) = r.met b family := by
  rw [searched, drop_of_getElem? hfamily, List.find?_cons_of_pos (by simpa using hname),
    Option.elim]

/-- A step of the section keeps what the section comes to. -/
theorem Work.finish (hwork : Work r k r' k') : k'.finish r' = k.finish r := by
  cases hwork with
  | taken hexists => rw [Place.finish, Place.finish, List.any_cons, hexists]; rfl
  | untaken hexists => rw [Place.finish, Place.finish, List.any_cons, hexists]; rfl
  | own => rfl
  | skip hfamily hname =>
      rw [Place.finish, Place.finish, searched, searched, drop_of_getElem? hfamily,
        List.find?_cons_of_neg (by simpa using hname)]
  | merge hfamily hname hmode hlabels =>
      rw [Place.finish, Place.finish, searched_of_name hfamily hname, met, if_pos hmode,
        if_pos hlabels]
  | differ hfamily hname hmode hlabels =>
      rw [Place.finish, Place.finish, searched_of_name hfamily hname, met, if_pos hmode,
        if_neg hlabels]
  | throw hfamily hname hmode =>
      rw [Place.finish, Place.finish, searched_of_name hfamily hname, met, if_neg hmode]
  | new => rw [Place.finish, Place.finish, searched, List.drop_length, List.find?_nil, Option.elim]
  | invalid hnew => rw [Place.finish, Place.finish, created, hnew]
  | push hnew => rw [Place.finish, Place.finish, created, hnew]
  | @pass T address i family hfamily haddress =>
      have htake : (r.getFamilies T).take (i + 1) = (r.getFamilies T).take i ++ [family] := by
        rw [List.take_add_one, hfamily, Option.toList_some]
      rw [Place.finish, Place.finish, drop_of_getElem? hfamily, List.any_cons,
        List.eraseP_cons_of_neg (by simpa using haddress), decide_eq_false haddress, Bool.false_or,
        htake, List.append_assoc, List.singleton_append]
  | @erase T address i family hfamily haddress =>
      rw [Place.finish, Place.finish, drop_of_getElem? hfamily, List.any_cons,
        List.eraseP_cons_of_pos (by simpa using haddress), decide_eq_true haddress, Bool.true_or,
        if_pos rfl, List.eraseIdx_eq_take_drop_succ]
  | absent => simp [Place.finish]

theorem machine_finishes : machine.Finishes Place.finish where
  work hwork := Work.finish hwork
  prelude _ request := by cases request <;> rfl
  result {r k reply} hresult := by
    cases k with
    | finished reply =>
        cases hresult
        rfl
    | _ => cases hresult

/-- The vectors that `NameExistsInOtherType` names are those of the other types. -/
theorem nameExistsInOtherType_eq_any (r : Registry) (T : MetricKind) (name : Str) :
    r.nameExistsInOtherType T name =
      (kinds.filter fun T' => T' ≠ T).any fun T' => familyNameExists name (r.getFamilies T') := by
  cases T <;> simp [nameExistsInOtherType, kinds, getFamilies, Bool.or_assoc]

/-- The sections come to what the functions of the class do. -/
theorem effect_eq_whole (request : Request) (r : Registry) :
    machine.effect Place.finish request r = some (request.whole r) := by
  cases request with
  | @add T address b =>
      have heffect : machine.effect Place.finish (.add address b) r =
        (Place.names address b (kinds.filter fun T' => T' ≠ T)).finish r := rfl
      rw [heffect, Place.finish, ← nameExistsInOtherType_eq_any, Request.whole, Builder.register,
        add]
      split
      · rfl
      · rw [searched]
        dsimp only
        cases (r.getFamilies T).find? fun family => b.name_ = family.getName with
        | none =>
            rw [Option.elim, created]
            dsimp only
            cases Family.new T address b.name_ b.help_ b.labels_ <;> rfl
        | some family =>
            rw [Option.elim, met]
            dsimp only
            split
            · split <;> rfl
            · rfl
  | remove T family =>
      have heffect : machine.effect Place.finish (.remove T family) r =
        (Place.look T family 0).finish r := rfl
      rw [heffect, Place.finish, List.drop_zero, List.take_zero, List.nil_append, Request.whole,
        remove]
      split <;> rfl

end Finish

section Names

variable {r : Registry} {T T' : MetricKind}

/-- All families that are held have different names. -/
def NamesDistinct (r : Registry) : Prop :=
  Directory.Distinct (fun _ (f : Family _) => f.name_) r.getFamilies

theorem NamesDistinct.whole (h : r.NamesDistinct) (request : Request) :
    (request.whole r).2.NamesDistinct := by
  cases request with
  | @add T address b =>
      rcases r.add_cases T address b.name_ b.help_ b.labels_ with ⟨_, hadd, -⟩ | ⟨_, -, hadd, -⟩ |
        ⟨hname, hlabels, hnew, hadd⟩
      · rwa [Request.whole, Builder.register, hadd]
      · rwa [Request.whole, Builder.register, hadd]
      · rw [Request.whole, Builder.register, hadd, NamesDistinct, getFamilies_setFamilies]
        exact Directory.Distinct.append h hnew
  | remove T family =>
      rcases r.remove_cases T family with ⟨pre, f, post, hsplit, -, hremove⟩ | ⟨-, hremove⟩
      · rw [Request.whole, hremove, NamesDistinct, getFamilies_setFamilies]
        have hrest : (pre ++ post).Sublist (r.getFamilies T) := by
          rw [hsplit]
          exact (List.sublist_cons_self f post).append_left pre
        exact Directory.Distinct.sublist h hrest
      · rwa [Request.whole, hremove]

/-- A family that an `Add` returns is held under the name asked for. -/
theorem register_held {address a : ℕ} {b : Builder T} (h : (b.register r address).1 = .ok a) :
    ∃ f ∈ (b.register r address).2.getFamilies T, f.address = a ∧ f.name_ = b.name_ := by
  rw [Builder.register] at h ⊢
  rcases r.add_cases T address b.name_ b.help_ b.labels_ with ⟨_, hadd, -⟩ |
    ⟨f, hf, hadd, hname, -⟩ | ⟨hname, hlabels, -, hadd⟩
  · rw [hadd] at h
    cases h
  · rw [hadd] at h ⊢
    cases h
    exact ⟨f, hf, rfl, hname⟩
  · rw [hadd] at h ⊢
    cases h
    rw [getFamilies_setFamilies, Function.update_self]
    exact ⟨_, List.mem_append_right _ (List.mem_singleton_self _), rfl, rfl⟩

/-- An `Add` keeps the families held. -/
theorem mem_register_of_mem {address : ℕ} (b : Builder T) {f : Family T'}
    (hf : f ∈ r.getFamilies T') :
    f ∈ (b.register r address).2.getFamilies T' := by
  rw [Builder.register]
  rcases r.add_cases T address b.name_ b.help_ b.labels_ with ⟨_, hadd, -⟩ | ⟨_, -, hadd, -⟩ |
    ⟨hname, hlabels, -, hadd⟩
  · rwa [hadd]
  · rwa [hadd]
  · rw [hadd, getFamilies_setFamilies]
    by_cases hT : T' = T
    · subst hT
      rw [Function.update_self]
      exact List.mem_append_left _ hf
    · rwa [Function.update_of_ne hT]

/-- An `Add` of a name that is held returns the family that holds it, or
nothing. -/
theorem NamesDistinct.register_eq (h : r.NamesDistinct) {address a : ℕ} {b : Builder T}
    {f : Family T'} (hf : f ∈ r.getFamilies T') (hname : f.name_ = b.name_)
    (hregister : (b.register r address).1 = .ok a) : T' = T ∧ f.address = a := by
  rw [Builder.register] at hregister
  rcases r.add_cases T address b.name_ b.help_ b.labels_ with ⟨_, hadd, -⟩ |
    ⟨f', hf', hadd, hname', -, -, hothers⟩ | ⟨-, -, hnew, -⟩
  · rw [hadd] at hregister
    cases hregister
  · rw [hadd] at hregister
    cases hregister
    have hT : T' = T := by_contra fun hne => hothers T' hne f hf hname
    subst hT
    rw [Directory.Distinct.eq_of_key h hf hf' (hname.trans hname'.symm)]
    exact ⟨rfl, rfl⟩
  · exact absurd hname (hnew T' f hf)

end Names

section Threads

variable {θ : Type} [DecidableEq θ] {r : Registry}

/-- The registry after a list of calls, in order. -/
def runRequests (r : Registry) (requests : List Request) : Registry :=
  requests.foldl (fun r request => (request.whole r).2) r

/-- The calls that ended, in order. -/
def requestsMade (ended : List (θ × Request × Reply)) : List Request := ended.map fun c => c.2.1

theorem NamesDistinct.runRequests (h : r.NamesDistinct) (requests : List Request) :
    (r.runRequests requests).NamesDistinct := by
  induction requests generalizing r with
  | nil => exact h
  | cons request requests ih => exact ih (h.whole request)

/-- Calls of `Add` keep the families held. -/
theorem mem_runRequests_of_mem {requests : List Request}
    (hadds : ∀ T family, .remove T family ∉ requests) {T : MetricKind} {f : Family T}
    (hf : f ∈ r.getFamilies T) : f ∈ (r.runRequests requests).getFamilies T := by
  induction requests generalizing r with
  | nil => exact hf
  | cons request requests ih =>
      refine ih (fun T family hmem => hadds T family (List.mem_cons_of_mem _ hmem)) ?_
      cases request with
      | add address b => exact mem_register_of_mem b hf
      | remove T family => exact absurd List.mem_cons_self (hadds T family)

/-- However the threads interleave, every call has the answer that it has on the
registry left by the calls that ended before it, one after the other, and
whenever the lock is free all names are different. Two calls of `Add` for one
name, of whatever types, that both return a family without a `Remove` between
them return the same one. -/
theorem registry_serial {start s : CriticalSections.Shared θ Registry Request Place}
    {ended : List (θ × Request × Reply)} (hidle : start.Idle)
    (hnames : start.object.NamesDistinct)
    (h : LabelledSteps.Steps (CriticalSections.Step machine) start ended s) :
    (∀ before t request reply after, ended = before ++ (t, request, reply) :: after →
      reply = (request.whole (start.object.runRequests (requestsMade before))).1) ∧
    (s.lock = none → s.object = start.object.runRequests (requestsMade ended) ∧
      s.object.NamesDistinct) ∧
    (∀ t, callsOf t ended ++ (s.threads t).calls = (start.threads t).calls) ∧
    ∀ before t u middle after (T T' : MetricKind) (b : Builder T) (b' : Builder T')
        (address address' a a' : ℕ),
      ended = before ++ (t, .add address b, .added (.ok a)) ::
        (middle ++ (u, .add address' b', .added (.ok a')) :: after) →
      b'.name_ = b.name_ → (∀ T family, .remove T family ∉ requestsMade middle) →
        T' = T ∧ a' = a := by
  obtain ⟨base, hordered⟩ := ordered machine_finishes hidle h
  have hreplies : ∀ before t request reply after, ended = before ++ (t, request, reply) :: after →
      reply = (request.whole (start.object.runRequests (requestsMade before))).1 := by
    rintro before t request reply after rfl
    exact hordered.serial.result_eq effect_eq_whole
  refine ⟨hreplies, ?_, hordered.calls, ?_⟩
  · intro hfree
    have hrun : s.object = start.object.runRequests (requestsMade ended) :=
      (hordered.free hfree).trans (hordered.serial.foldl_eq effect_eq_whole)
    exact ⟨hrun, hrun ▸ hnames.runRequests _⟩
  · intro before t u middle after T T' b b' address address' a a' hended hname hadds
    have hfirst := hreplies _ _ _ _ _ hended
    rw [← List.cons_append, ← List.append_assoc] at hended
    have hsecond := hreplies _ _ _ _ _ hended
    rw [requestsMade, List.map_append, List.map_cons, runRequests, List.foldl_append,
      List.foldl_cons] at hsecond
    obtain ⟨f, hf, haddress, hfname⟩ := register_held (Reply.added.inj hfirst).symm
    have hheld := mem_runRequests_of_mem hadds hf
    have hbefore := hnames.runRequests (requestsMade before)
    have hdistinct := (hbefore.whole (.add address b)).runRequests (requestsMade middle)
    obtain ⟨hT, haddress'⟩ := hdistinct.register_eq hheld (hfname.trans hname.symm)
      (Reply.added.inj hsecond).symm
    exact ⟨hT.symm, haddress'.symm.trans haddress⟩

/-- Gauges of the name that a counter has. -/
def clashing : Builder .gaugeInt := ⟨⟨[], Labels.sorted_nil⟩, "requests".toList, []⟩

/-- One thread asks for the gauges, the other one removes the counter. -/
def askedAndRemoved : CriticalSections.Shared Bool Registry Request Place where
  object := oneCounter
  lock := none
  threads t := ⟨.outside, if t then [.remove .counterInt 1] else [.add 2 clashing]⟩

/-- The name is free one call too late. -/
theorem registry_serial_asked_and_removed : ∃ exception found,
    Reply.added (.error exception) = ((Request.add 2 clashing).whole oneCounter).1 ∧
    Reply.removed found =
      ((Request.remove .counterInt 1).whole (oneCounter.runRequests [.add 2 clashing])).1 := by
  have hrun : ∃ s exception found,
      LabelledSteps.Steps (CriticalSections.Step machine) askedAndRemoved
      [(false, .add 2 clashing, .added (.error exception)),
        (true, .remove .counterInt 1, .removed found)] s :=
    ⟨_, _, _, .silent (.prepare (t := false) rfl rfl) <| .silent (.acquire (t := false) rfl rfl) <|
      .silent (.prepare (t := true) rfl rfl) <| .silent (.work (t := false) rfl (.untaken rfl)) <|
      .silent (.work (t := false) rfl (.taken rfl)) <| .shown (.release (t := false) rfl rfl) <|
      .silent (.acquire (t := true) rfl rfl) <| .silent (.work (t := true) rfl (.erase rfl rfl)) <|
      .shown (.release (t := true) rfl rfl) <| .refl _⟩
  obtain ⟨s, exception, found, hs⟩ := hrun
  have hnames : askedAndRemoved.object.NamesDistinct := oneCounter_reachable.wellformed.names
  have hreplies := (registry_serial ⟨rfl, fun _ => rfl⟩ hnames hs).1
  exact ⟨exception, found, hreplies [] false _ _ _ rfl, hreplies [_] true _ _ [] rfl⟩

end Threads

end Promcore.Registry
