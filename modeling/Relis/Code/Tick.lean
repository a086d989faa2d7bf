import Relis.Code.Sched

/-!
# `scheduler_tick` and the `task_tick` of each class

The timer adds to the run time of a fair task, in words that a real-time task has for the
links of its list node.
-/

namespace Relis.Code

def SE_SUM_EXEC_RUNTIME : Nat := 1
def SE_VRUNTIME : Nat := 2

/-- The words are numbers in a task of the fair class. -/
def Word.add : Word → BitVec 64 → Word
  | .int v, d => .int (v + d)
  | w, _ => w

def Word.value : Word → BitVec 64
  | .int v => v
  | _ => 0

def need_resched (t : Task) : Task := { t with flags := t.flags ||| TIF_NEED_RESCHED }

def task_tick_fair (t : Task) : Task :=
  let entity := Function.update t.entity SE_SUM_EXEC_RUNTIME ((t.entity SE_SUM_EXEC_RUNTIME).add 1)
  let quotient := 1024 / (t.entity SE_WEIGHT).value.setWidth 32
  let entity := Function.update entity SE_VRUNTIME ((entity SE_VRUNTIME).add (quotient.setWidth 64))
  need_resched { t with entity := entity }

def task_tick_rt (t : Task) : Task := if t.policy = SCHED_RR then need_resched t else t

def task_tick_idle (t : Task) : Task := need_resched t

def SchedClass.task_tick : SchedClass → Task → Task
  | .rt_sched_class => task_tick_rt
  | .fair_sched_class => task_tick_fair
  | .idle_sched_class => task_tick_idle

def scheduler_tick (k : Kernel) : Kernel :=
  let k := { k with clock := k.clock + 1 }
  k.update_task k.current_task fun t => t.sched_class.task_tick t

end Relis.Code
