-- `CAoEvent` on both systems, as a bell: a wait comes back at once when a signal has come that no
-- earlier wait has taken.
import Aods.Mailboxes

open mailboxes

namespace util.ao_event

/-- `CAoEvent`: an event of Windows that resets itself, or a semaphore. -/
inductive CAoEvent where
  | event (set : Bool)
  | sem (value : Nat)

/-- `SEM_VALUE_MAX`: at this value `sem_post` fails. -/
def semValueMax : Nat := 2147483647

namespace CAoEvent

/-- `Reset` does nothing to a semaphore. -/
def reset : CAoEvent → CAoEvent
  | .event _ => .event false
  | .sem value => .sem value

/-- The constructor, with `CreateEvent` or with `sem_init`. -/
def createEvent : CAoEvent := reset (.event true)

def semInit : CAoEvent := reset (.sem 2)

def signal : CAoEvent → CAoEvent
  | .event _ => .event true
  | .sem value => .sem (if value < semValueMax then value + 1 else value)

/-- `Wait` where it comes back at once. `none`: it blocks, until a signal or the timeout. -/
def wait : CAoEvent → Option CAoEvent
  | .event true => some (.event false)
  | .event false => none
  | .sem 0 => none
  | .sem (value + 1) => some (.sem value)

/-- The waits that come back at once. -/
def waits : CAoEvent → Nat
  | .event set => set.toNat
  | .sem value => value

/-- A signal is never lost. -/
def bell : Bell CAoEvent where
  ring := signal
  answer := wait
  rings := waits
  answer_none := by
    rintro (_ | _)
    · rename_i set
      cases set <;> simp [wait, waits]
    · rename_i value
      cases value <;> simp [wait, waits]
  answer_some := by
    rintro (_ | _) e' h
    · rename_i set
      cases set with
      | false => cases h
      | true =>
        cases h
        rfl
    · rename_i value
      cases value with
      | zero => cases h
      | succ value =>
        cases h
        rfl
  rings_ring := by
    rintro (_ | _)
    · exact Nat.one_pos
    · rename_i value
      simp only [signal, waits]
      by_cases hlt : value < semValueMax
      · rw [if_pos hlt]
        exact Nat.succ_pos value
      · rw [if_neg hlt]
        exact Nat.lt_of_lt_of_le (by decide) (Nat.le_of_not_lt hlt)

end CAoEvent

end util.ao_event
