/-!
# Results with notices

A computation that never fails may still have something to report. `Logged` pairs its result with
the notices raised on the way, oldest first.
-/

namespace RailAtlas

/-- A result together with the notices raised while it was computed, oldest first. -/
structure Logged (ω α : Type) where
  value : α
  notices : List ω

namespace Logged

variable {ω α β : Type}

def quiet (a : α) : Logged ω α :=
  { value := a, notices := [] }

/-- Go on with the result; the later notices follow the earlier ones. -/
def andThen (l : Logged ω α) (f : α → Logged ω β) : Logged ω β :=
  let next := f l.value
  { value := next.value, notices := l.notices ++ next.notices }

def map (f : α → β) (l : Logged ω α) : Logged ω β :=
  { value := f l.value, notices := l.notices }

/-- Run over a list from the left, keeping every notice. -/
def foldList (f : β → α → Logged ω β) : β → List α → Logged ω β
  | b, [] => quiet b
  | b, a :: rest => (f b a).andThen fun b => foldList f b rest

@[simp] theorem value_quiet (a : α) : (quiet a : Logged ω α).value = a := rfl

@[simp] theorem notices_quiet (a : α) : (quiet a : Logged ω α).notices = [] := rfl

@[simp] theorem value_andThen (l : Logged ω α) (f : α → Logged ω β) :
    (l.andThen f).value = (f l.value).value := rfl

@[simp] theorem notices_andThen (l : Logged ω α) (f : α → Logged ω β) :
    (l.andThen f).notices = l.notices ++ (f l.value).notices := rfl

@[simp] theorem value_map (f : α → β) (l : Logged ω α) : (l.map f).value = f l.value := rfl

@[simp] theorem notices_map (f : α → β) (l : Logged ω α) : (l.map f).notices = l.notices := rfl

/-- The result of a run over a list does not depend on the notices. -/
theorem value_foldList (f : β → α → Logged ω β) (b : β) (as : List α) :
    (foldList f b as).value = as.foldl (fun b a => (f b a).value) b := by
  induction as generalizing b with
  | nil => rfl
  | cons a rest ih => simpa [foldList] using ih (f b a).value

end Logged

end RailAtlas
