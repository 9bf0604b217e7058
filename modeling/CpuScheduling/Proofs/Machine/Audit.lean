import CpuScheduling.Proofs.Machine.Order

/-!
An orderly machine passes its audit.
-/

namespace CpuScheduling.Machine

variable {workload : List Spec} {machine : Machine}

theorem auditQueue_eq_ok {ids : List Nat} (nodup : ids.Nodup)
    (ready : ∀ id ∈ ids, machine.phase? id = some .ready) : machine.auditQueue ids = .ok () := by
  induction ids with
  | nil => rfl
  | cons id rest inductionHypothesis =>
      obtain ⟨fresh, nodupRest⟩ := List.nodup_cons.mp nodup
      obtain ⟨job, present, isReady⟩ := phase?_eq_some_iff.mp (ready id List.mem_cons_self)
      have others := inductionHypothesis nodupRest fun other member =>
        ready other (List.mem_cons_of_mem id member)
      simp [auditQueue, ensure, fresh, job_of_job? present, isReady, others, bind, Except.bind]

namespace Orderly

variable (orderly : machine.Orderly workload machine.now [])

include orderly

theorem auditCpu : machine.auditCpu = .ok () := by
  cases current : machine.cpu.current with
  | none => simp [Machine.auditCpu, current]
  | some id =>
      have onCpu := (orderly.placement.current_iff id).mp current
      obtain ⟨job, present, isRunning⟩ := phase?_eq_some_iff.mp onCpu
      have absent : id ∉ machine.ready.ids := fun queued => by
        simp [(orderly.placement.mem_iff id).mp queued] at onCpu
      simp [Machine.auditCpu, current, ensure, job_of_job? present, isRunning, absent, bind,
        Except.bind]

theorem audit (elapsed : machine.trace.size = machine.now) (room : machine.now < wordSize) :
    machine.audit = .ok () := by
  have queue : machine.auditQueue machine.ready.members = .ok () := by
    apply auditQueue_eq_ok
    · exact machine.ready.ids_perm.nodup_iff.mp orderly.placement.nodup
    · intro id member
      exact (orderly.placement.mem_iff id).mp (ReadyQueue.mem_members.mp member)
  have books : machine.jobs.forM Job.audit = .ok () := by
    apply forM_eq_ok_iff.mpr
    intro job member
    obtain ⟨id, present⟩ := exists_job?_of_mem member
    exact (orderly.balanced id job present).audit room
  simp only [Machine.audit, ensure, elapsed, ↓reduceIte, orderly.auditCpu, queue, books, bind,
    Except.bind]

end Orderly

end CpuScheduling.Machine
