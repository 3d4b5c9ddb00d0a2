import WllOs.Task.Flow

namespace WllOs

namespace WaitState

variable {τ : Type} (state : WaitState τ) (task : τ)

-- An entry of the last wait of the task is in its queue.
def Listed (key : EntryKey) : Prop :=
  ⟨task, (state.waits task).token, key⟩ ∈ state.queues (state.waits task).list

-- A waker has taken an entry of the wait out of the queue, and has not finished with it.
def Waking : Prop :=
  ∃ thread entry, state.taken thread = some ((state.waits task).list, entry) ∧ entry.task = task ∧
    entry.token = (state.waits task).token

-- A thread that has changed the memory has yet to wake an entry of the wait.
def WakeOwed : Prop :=
  ∃ thread filter key, ((state.waits task).list, filter) ∈ state.owed thread ∧ filter.accepts key ∧
    key ∈ (state.waits task).keys ∧ state.Listed task key

-- What holds of a task whose status is `Blocked`. It has no outcome that it has not seen once it has given up its
-- processor. Unless it has an outcome, its entries are in the queue or about to wake it, and it is about to be woken if
-- its condition does not hold any more. A requeue gives entries other keys, so that futexes are left out.
structure Attended : Prop where
  asleep : (state.tasks task).current = false → (state.tasks task).waitOutcome = none
  listed : (state.waits task).list ≠ .futex → (state.tasks task).waitOutcome = none →
            ∀ key ∈ (state.waits task).keys, state.Listed task key ∨ state.Waking task
  due    : (state.waits task).list ≠ .futex → (state.tasks task).waitOutcome = none →
            (state.waits task).condition state.memory ≠ .ok true → state.Waking task ∨ state.WakeOwed task

end WaitState

end WllOs
