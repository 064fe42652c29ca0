import LoadGen.Proofs.History

namespace LoadGen

namespace Program

variable {α β : Type}

protected theorem bind_assoc {γ : Type} (p : Program α) (f : α → Program β)
    (g : β → Program γ) : p >>= f >>= g = p >>= fun a => f a >>= g := by
  induction p with
  | done a => rfl
  | ask request next ih => exact congrArg (ask request) (funext ih)

protected theorem id_map (p : Program α) : id <$> p = p := by
  induction p with
  | done a => rfl
  | ask request next ih => exact congrArg (ask request) (funext ih)

instance : LawfulMonad Program :=
  LawfulMonad.mk' Program Program.id_map (fun _ _ => rfl) Program.bind_assoc

/-- With replies that `env` allows, every exchange is `safe`, and every end meets `post`. Both see
the history of the thread before them. -/
def Ensures (env safe : Exchange → History → Prop) (post : α → History → Prop) :
    Program α → History → Prop
  | done result, h => post result h
  | ask request next, h => ∀ t reply, env ⟨t, request, reply⟩ h →
      safe ⟨t, request, reply⟩ h ∧
        (next reply).Ensures env safe post (⟨t, request, reply⟩ :: h)

/-- All requests that the program can make are of one kind, and all its results of another, whatever
the replies. -/
def Only (kind : Request → Prop) (result : α → Prop) : Program α → Prop
  | done a => result a
  | ask request next => kind request ∧ ∀ reply, (next reply).Only kind result

section Ensures

variable {env safe : Exchange → History → Prop} {h : History}

@[simp] theorem ensures_pure {post : α → History → Prop} {a : α} :
    (pure a : Program α).Ensures env safe post h ↔ post a h := Iff.rfl

@[simp] theorem ensures_bind {post : β → History → Prop} {p : Program α} {f : α → Program β} :
    (p >>= f).Ensures env safe post h ↔
      p.Ensures env safe (fun a h => (f a).Ensures env safe post h) h := by
  change (p.bind f).Ensures env safe post h ↔ _
  induction p generalizing h with
  | done a => rfl
  | ask request next ih => simp only [Program.bind, Ensures, ih]

theorem ensures_emit {e : Event} {post : Unit → History → Prop} :
    (emit e).Ensures env safe post h ↔ ∀ t, env ⟨t, .emit e, ()⟩ h →
      safe ⟨t, .emit e, ()⟩ h ∧ post () (⟨t, .emit e, ()⟩ :: h) :=
  ⟨fun ensured t => ensured t (), fun all t _ => all t⟩

theorem ensures_enrol {post : Unit → History → Prop} :
    enrol.Ensures env safe post h ↔ ∀ t, env ⟨t, .call .enrol, ()⟩ h →
      safe ⟨t, .call .enrol, ()⟩ h ∧ post () (⟨t, .call .enrol, ()⟩ :: h) :=
  ⟨fun ensured t => ensured t (), fun all t _ => all t⟩

theorem ensures_clock {post : Stamp → History → Prop} :
    clock.Ensures env safe post h ↔ ∀ t (now : Stamp), env ⟨t, .call .clock, now⟩ h →
      safe ⟨t, .call .clock, now⟩ h ∧ post now (⟨t, .call .clock, now⟩ :: h) := Iff.rfl

theorem ensures_isAborted {post : Bool → History → Prop} :
    isAborted.Ensures env safe post h ↔ ∀ t (aborted : Bool),
      env ⟨t, .call .isAborted, aborted⟩ h → safe ⟨t, .call .isAborted, aborted⟩ h ∧
        post aborted (⟨t, .call .isAborted, aborted⟩ :: h) := Iff.rfl

theorem ensures_startTime {post : Option Stamp → History → Prop} :
    startTime.Ensures env safe post h ↔ ∀ t (start : Option Stamp),
      env ⟨t, .call .startTime, start⟩ h → safe ⟨t, .call .startTime, start⟩ h ∧
        post start (⟨t, .call .startTime, start⟩ :: h) := Iff.rfl

theorem ensures_awaitStart {post : Option Stamp → History → Prop} :
    awaitStart.Ensures env safe post h ↔ ∀ t (start : Option Stamp),
      env ⟨t, .call .awaitStart, start⟩ h → safe ⟨t, .call .awaitStart, start⟩ h ∧
        post start (⟨t, .call .awaitStart, start⟩ :: h) := Iff.rfl

theorem ensures_abort {cause : AbortCause} {post : Bool → History → Prop} :
    (abort cause).Ensures env safe post h ↔ ∀ t (first : Bool),
      env ⟨t, .call (.abort cause), first⟩ h → safe ⟨t, .call (.abort cause), first⟩ h ∧
        post first (⟨t, .call (.abort cause), first⟩ :: h) := Iff.rfl

theorem ensures_sleepUntil {deadline : Stamp} {post : Wait → History → Prop} :
    (sleepUntil deadline).Ensures env safe post h ↔ ∀ t (wait : Wait),
      env ⟨t, .call (.sleepUntil deadline), wait⟩ h →
        safe ⟨t, .call (.sleepUntil deadline), wait⟩ h ∧
          post wait (⟨t, .call (.sleepUntil deadline), wait⟩ :: h) := Iff.rfl

theorem Ensures.mono {p : Program α} {post weaker : α → History → Prop}
    (ensured : p.Ensures env safe post h) (imp : ∀ a h, post a h → weaker a h) :
    p.Ensures env safe weaker h := by
  induction p generalizing h with
  | done a => exact imp a h ensured
  | ask request next ih =>
    intro t reply possible
    obtain ⟨kept, rest⟩ := ensured t reply possible
    exact ⟨kept, ih reply rest⟩

theorem Ensures.weaken {p : Program α} {post : α → History → Prop}
    {weaker : Exchange → History → Prop} (ensured : p.Ensures env safe post h)
    (imp : ∀ x h, safe x h → weaker x h) : p.Ensures env weaker post h := by
  induction p generalizing h with
  | done a => exact ensured
  | ask request next ih =>
    intro t reply possible
    obtain ⟨kept, rest⟩ := ensured t reply possible
    exact ⟨imp _ _ kept, ih reply rest⟩

theorem Ensures.and {p : Program α} {post other : α → History → Prop}
    (left : p.Ensures env safe post h) (right : p.Ensures env (fun _ _ => True) other h) :
    p.Ensures env safe (fun a h => post a h ∧ other a h) h := by
  induction p generalizing h with
  | done a => exact ⟨left, right⟩
  | ask request next ih =>
    intro t reply possible
    obtain ⟨kept, rest⟩ := left t reply possible
    exact ⟨kept, ih reply rest (right t reply possible).2⟩

/-- What every exchange keeps holds at every end. -/
theorem ensures_of_kept {p : Program α} {keep : History → Prop}
    (kept : ∀ x h, keep h → safe x h ∧ keep (x :: h)) (now : keep h) :
    p.Ensures env safe (fun _ => keep) h := by
  induction p generalizing h with
  | done a => exact now
  | ask request next ih =>
    intro t reply _
    obtain ⟨allowed, after⟩ := kept ⟨t, request, reply⟩ h now
    exact ⟨allowed, ih reply after⟩

/-- What no exchange can end holds at every end. -/
theorem ensures_of_lasting {p : Program α} {keep : History → Prop}
    (lasts : ∀ x h, keep h → keep (x :: h)) (now : keep h) :
    p.Ensures env (fun _ _ => True) (fun _ => keep) h :=
  ensures_of_kept (fun x h holds => ⟨trivial, lasts x h holds⟩) now

/-- Requests of one kind keep what every exchange of that kind keeps. -/
theorem Only.ensures {kind : Request → Prop} {result : α → Prop} {p : Program α}
    {keep : History → Prop} (only : p.Only kind result)
    (step : ∀ x h, kind x.request → env x h → keep h → safe x h ∧ keep (x :: h))
    (now : keep h) : p.Ensures env safe (fun a h => result a ∧ keep h) h := by
  induction p generalizing h with
  | done a => exact ⟨only, now⟩
  | ask request next ih =>
    intro t reply possible
    obtain ⟨kept, after⟩ := step ⟨t, request, reply⟩ h only.1 possible now
    exact ⟨kept, ih reply (only.2 reply) after⟩

/-- Requests of one kind are safe if that kind is, whatever was before them. -/
theorem Only.ensures_of_safe {kind : Request → Prop} {result : α → Prop} {p : Program α}
    (only : p.Only kind result) (kept : ∀ x h, kind x.request → safe x h) :
    p.Ensures env safe (fun a _ => result a) h := by
  have trivially : ∀ x h, kind x.request → env x h → True → safe x h ∧ True :=
    fun x h of_kind _ _ => ⟨kept x h of_kind, trivial⟩
  exact (only.ensures trivially trivial).mono fun _ _ ends => ends.1

end Ensures

section Only

variable {kind : Request → Prop}

@[simp] theorem only_pure {result : α → Prop} {a : α} :
    (pure a : Program α).Only kind result ↔ result a := Iff.rfl

@[simp] theorem only_bind {result : β → Prop} {p : Program α} {f : α → Program β} :
    (p >>= f).Only kind result ↔ p.Only kind fun a => (f a).Only kind result := by
  change (p.bind f).Only kind result ↔ _
  induction p with
  | done a => rfl
  | ask request next ih => simp only [Program.bind, Only, ih]

@[simp] theorem only_map {result : β → Prop} {p : Program α} {f : α → β} :
    (f <$> p).Only kind result ↔ p.Only kind fun a => result (f a) := by
  rw [map_eq_pure_bind, only_bind]
  rfl

@[simp] theorem only_emit {e : Event} {result : Unit → Prop} :
    (emit e).Only kind result ↔ kind (.emit e) ∧ result () :=
  ⟨fun only => ⟨only.1, only.2 ()⟩, fun only => ⟨only.1, fun _ => only.2⟩⟩

@[simp] theorem only_clock {result : Stamp → Prop} :
    clock.Only kind result ↔ kind (.call .clock) ∧ ∀ now, result now := Iff.rfl

@[simp] theorem only_isAborted {result : Bool → Prop} :
    isAborted.Only kind result ↔ kind (.call .isAborted) ∧ ∀ aborted, result aborted := Iff.rfl

@[simp] theorem only_startTime {result : Option Stamp → Prop} :
    startTime.Only kind result ↔ kind (.call .startTime) ∧ ∀ start, result start := Iff.rfl

@[simp] theorem only_awaitStart {result : Option Stamp → Prop} :
    awaitStart.Only kind result ↔ kind (.call .awaitStart) ∧ ∀ start, result start := Iff.rfl

@[simp] theorem only_fixStart {t : Stamp} {result : Bool → Prop} :
    (fixStart t).Only kind result ↔ kind (.call (.fixStart t)) ∧ ∀ fixed, result fixed := Iff.rfl

@[simp] theorem only_abort {cause : AbortCause} {result : Bool → Prop} :
    (abort cause).Only kind result ↔ kind (.call (.abort cause)) ∧ ∀ first, result first := Iff.rfl

@[simp] theorem only_arrive {result : Unit → Prop} :
    arrive.Only kind result ↔ kind (.call .arrive) ∧ result () :=
  ⟨fun only => ⟨only.1, only.2 ()⟩, fun only => ⟨only.1, fun _ => only.2⟩⟩

@[simp] theorem only_awaitAll {result : Unit → Prop} :
    awaitAll.Only kind result ↔ kind (.call .awaitAll) ∧ result () :=
  ⟨fun only => ⟨only.1, only.2 ()⟩, fun only => ⟨only.1, fun _ => only.2⟩⟩

@[simp] theorem only_sleepUntil {t : Stamp} {result : Wait → Prop} :
    (sleepUntil t).Only kind result ↔ kind (.call (.sleepUntil t)) ∧ ∀ wait, result wait := Iff.rfl

@[simp] theorem only_pass {s : Span} {result : Unit → Prop} :
    (pass s).Only kind result ↔ kind (.call (.pass s)) ∧ ∀ u, result u := Iff.rfl

theorem Only.mono {result weaker : α → Prop} {p : Program α} (only : p.Only kind result)
    (imp : ∀ a, result a → weaker a) : p.Only kind weaker := by
  induction p with
  | done a => exact imp a only
  | ask request next ih => exact ⟨only.1, fun reply => ih reply (only.2 reply)⟩

theorem only_true (p : Program α) : p.Only (fun _ => True) fun _ => True := by
  induction p with
  | done a => trivial
  | ask request next ih => exact ⟨trivial, ih⟩

theorem Only.weaken {weaker : Request → Prop} {result : α → Prop} {p : Program α}
    (only : p.Only kind result) (imp : ∀ request, kind request → weaker request) :
    p.Only weaker result := by
  induction p with
  | done a => exact only
  | ask request next ih => exact ⟨imp request only.1, fun reply => ih reply (only.2 reply)⟩

end Only

section Ends

variable {h new : History}

/-- The program comes to its result through these exchanges. -/
inductive Ends : Program α → History → α → Prop
  | done (a : α) : Ends (.done a) [] a
  | ask {request : Request} {next : request.Reply → Program α} {h : History} {a : α} (t : Stamp)
      (reply : request.Reply) : Ends (next reply) h a →
      Ends (.ask request next) (h ++ [⟨t, request, reply⟩]) a

/-- What holds of the result and the exchanges of a program whatever the replies. -/
def Always (p : Program α) (post : α → History → Prop) : Prop :=
  p.Ensures (fun _ _ => True) (fun _ _ => True) post []

theorem ends_pure {a b : α} : (pure a : Program α).Ends h b ↔ h = [] ∧ b = a := by
  constructor
  · intro ends
    cases ends
    exact ⟨rfl, rfl⟩
  · rintro ⟨rfl, rfl⟩
    exact .done _

theorem ends_bind {p : Program α} {f : α → Program β} {b : β} :
    (p >>= f).Ends h b ↔
      ∃ older newer a, h = newer ++ older ∧ p.Ends older a ∧ (f a).Ends newer b := by
  change (p.bind f).Ends h b ↔ _
  induction p generalizing h with
  | done a =>
    constructor
    · exact fun ends => ⟨[], h, a, by simp, .done a, ends⟩
    · rintro ⟨older, newer, _, rfl, ⟨⟩, ends⟩
      rwa [List.append_nil]
  | ask request next ih =>
    constructor
    · rintro (_ | ⟨t, reply, ends⟩)
      obtain ⟨older, newer, a, rfl, first, rest⟩ := (ih reply).mp ends
      exact ⟨_, newer, a, List.append_assoc _ _ _, .ask t reply first, rest⟩
    · rintro ⟨_, newer, a, rfl, (_ | ⟨t, reply, first⟩), rest⟩
      rw [← List.append_assoc]
      exact .ask t reply ((ih reply).mpr ⟨_, newer, a, rfl, first, rest⟩)

/-- What a program ensures holds where it ends. -/
theorem Ends.ensured {env safe : Exchange → History → Prop} {post : α → History → Prop}
    {p : Program α} {a : α} (ends : p.Ends new a) (ensured : p.Ensures env safe post h)
    (possible : History.Each env (new ++ h)) : post a (new ++ h) := by
  induction ends generalizing h with
  | done a => exact ensured
  | ask t reply ends ih =>
    rw [List.append_assoc, List.singleton_append] at possible ⊢
    exact ih (ensured t reply (possible.suffix (List.suffix_append _ _)).1).2 possible

theorem Ends.always {p : Program α} {post : α → History → Prop} {a : α} (ends : p.Ends h a)
    (always : p.Always post) : post a h := by
  have possible : History.Each (fun _ _ => True) (h ++ []) := History.each_of_mem fun _ _ => trivial
  have holds := ends.ensured always possible
  rwa [List.append_nil] at holds

end Ends

end Program

/-- The courses of a thread that begins with a program: what is left of the program at hand, and the
history. Every reply is possible here. -/
inductive Course {α : Type} (follow : α → Option (Program α)) (first : Program α) :
    Program α → History → Prop
  | start : Course follow first first []
  | follow {stage : α} {p : Program α} {h : History} : Course follow first (.done stage) h →
      follow stage = some p → Course follow first p h
  | answer {request : Request} {next : request.Reply → Program α} {h : History} (t : Stamp)
      (reply : request.Reply) : Course follow first (.ask request next) h →
      Course follow first (next reply) (⟨t, request, reply⟩ :: h)

namespace Course

variable {α : Type} {follow : α → Option (Program α)} {first p : Program α} {h : History}
  {env safe : Exchange → History → Prop} {inv : α → History → Prop}

/-- An invariant of the stages that every program keeps holds throughout a course. -/
theorem ensures (begins : first.Ensures env safe inv [])
    (keeps : ∀ stage p h, inv stage h → follow stage = some p → p.Ensures env safe inv h)
    (course : Course follow first p h) (possible : h.Each env) :
    h.Each safe ∧ p.Ensures env safe inv h := by
  induction course with
  | start => exact ⟨trivial, begins⟩
  | follow _ next ih =>
    obtain ⟨kept, holds⟩ := ih possible
    exact ⟨kept, keeps _ _ _ holds next⟩
  | answer t reply _ ih =>
    obtain ⟨kept, holds⟩ := ih possible.2
    obtain ⟨safe, rest⟩ := holds t reply possible.1
    exact ⟨⟨safe, kept⟩, rest⟩

end Course

end LoadGen
