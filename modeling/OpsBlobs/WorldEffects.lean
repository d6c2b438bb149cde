import OpsBlobs.WriteEffects
import OpsBlobs.OperationLogger

namespace OpsBlobs.WorldEffects

open Types Hlc FileRegistry Coroutine World OperationLogger WriteEffects

variable {G : World → World → Prop}

section Reads

theorem does_current (entry : FileEntry) : Does G (current entry) (fun _ => True) :=
  does_then does_get fun _ => does_pure trivial

theorem does_getByPath (path : Path) : Does G (OperationLogger.getByPath path) (fun _ => True) :=
  does_then does_get fun _ => does_pure trivial

theorem does_read (path : Path) : Does G (Files.read path) (fun _ => True) :=
  does_then does_pause fun _ => does_then does_get fun _ => does_then does_pause fun _ =>
    does_pure trivial

theorem does_fileExists (path : Path) : Does G (Files.fileExists path) (fun _ => True) :=
  does_then does_pause fun _ => does_then does_get fun _ => does_then does_pause fun _ =>
    does_pure trivial

theorem does_hashContent (D : Device) (content : Bytes) :
    Does G (hashContent D content) (fun _ => True) :=
  does_then does_pause fun _ => does_pure trivial

end Reads

section Writes

theorem does_updateRegistry {f : FileRegistry → FileRegistry}
    (h : ∀ w : World, G w { w with registry := f w.registry }) :
    Does G (updateRegistry f) (fun _ => True) := does_then (does_modify h) fun _ => does_pause

theorem does_put {hash : String} {content : Bytes}
    (h : ∀ w : World, G w { w with contentStore := w.contentStore.set hash content }) :
    Does G (ContentStore.put hash content) (fun _ => True) :=
  does_then (does_modify h) fun _ => does_pause

theorem does_hlcNow
    (h : ∀ (w : World) hlc reads, G w { w with hlc := hlc, wallReads := reads }) :
    Does G hlcNow (fun _ => True) := does_modifyGet fun w => h w _ _

end Writes

section Persistence

/-- A write of the log that leaves the ops alone. -/
def Persists (w w' : World) : Prop :=
  ∃ log : OpLog, w' = { w with log := log } ∧ log.pendingOps = w.log.pendingOps ∧
    log.recorded = w.log.recorded

theorem does_setLog {f : OpLog → OpLog}
    (hf : ∀ log, (f log).pendingOps = log.pendingOps ∧ (f log).recorded = log.recorded) :
    Does Persists (setLog f) (fun _ => True) := does_modify fun w => ⟨f w.log, rfl, hf w.log⟩

theorem does_enqueuePersist (stage : PersistStage) {work : Async Unit}
    (hwork : Does Persists work (fun _ => True)) :
    Does Persists (enqueuePersist stage work) (fun _ => True) := by
  refine does_then (does_modifyGet fun w => ⟨_, rfl, rfl, rfl⟩) fun ticket => ?_
  exact does_then does_awaitUntil fun _ =>
    does_tryFinally hwork (does_setLog fun _ => ⟨rfl, rfl⟩)

theorem does_appendOpLog : Does Persists appendOpLog (fun _ => True) := by
  refine does_enqueuePersist _ (does_then does_get fun w => ?_)
  dsimp only
  split
  · exact does_pause
  · refine does_then (does_setLog fun _ => ⟨rfl, rfl⟩) fun _ => does_then does_pause fun _ => ?_
    refine does_then does_pause fun _ => does_then (does_setLog fun _ => ⟨rfl, rfl⟩) fun _ => ?_
    exact does_then does_pause fun _ =>
      does_then (does_setLog fun _ => ⟨rfl, rfl⟩) fun _ => does_pause

theorem does_rewriteOpLog : Does Persists rewriteOpLog (fun _ => True) := by
  refine does_enqueuePersist _ (does_then does_pause fun _ => does_then does_get fun w => ?_)
  refine does_then (does_setLog fun _ => ⟨rfl, rfl⟩) fun _ => does_then does_pause fun _ => ?_
  refine does_then (does_setLog fun _ => ⟨rfl, rfl⟩) fun _ => does_then does_pause fun _ => ?_
  exact does_then (does_setLog fun _ => ⟨rfl, rfl⟩) fun _ => does_pause

end Persistence

section Steps

variable {R : World → World → Prop} {α : Type} {Q : Except String α → World → Prop} {w : World}

theorem wp_get {k : World → Async α} : wp R G (get >>= k) Q w ↔ wp R G (k w) Q w := Iff.rfl

theorem wp_setLog {f : OpLog → OpLog} {k : Unit → Async α} :
    wp R G (setLog f >>= k) Q w ↔
      G w { w with log := f w.log } ∧ wp R G (k ()) Q { w with log := f w.log } := Iff.rfl

theorem wp_current {e : FileEntry} {k : FileEntry → Async α} :
    wp R G (current e >>= k) Q w ↔ wp R G (k ((w.registry.getById e.id).getD e)) Q w := Iff.rfl

theorem wp_hlcNow {k : Hlc → Async α} :
    wp R G (hlcNow >>= k) Q w ↔
      G w { w with hlc := Hlc.now w.hlc w.wallTime, wallReads := w.wallReads + 1 } ∧
      wp R G (k (Hlc.now w.hlc w.wallTime)) Q
        { w with hlc := Hlc.now w.hlc w.wallTime, wallReads := w.wallReads + 1 } := Iff.rfl

theorem wp_pause {k : Unit → Async α} :
    wp R G (pause >>= k) Q w ↔ ∀ w', R w w' → wp R G (k ()) Q w' :=
  ⟨fun h w' hw => h w' hw rfl, fun h w' hw _ => h w' hw⟩

theorem wp_updateRegistry {f : FileRegistry → FileRegistry} {k : Unit → Async α} :
    wp R G (updateRegistry f >>= k) Q w ↔
      G w { w with registry := f w.registry } ∧
        ∀ w', R { w with registry := f w.registry } w' → wp R G (k ()) Q w' :=
  and_congr_right fun _ => wp_pause

theorem wp_getByPath {path : Path} {k : Option FileEntry → Async α} :
    wp R G (OperationLogger.getByPath path >>= k) Q w ↔
      wp R G (k (w.registry.getByPath path)) Q w := Iff.rfl

theorem wp_hashContent {D : Device} {content : Bytes} {k : String → Async α} :
    wp R G (hashContent D content >>= k) Q w ↔
      ∀ w', R w w' → wp R G (k (D.sha256Hex content)) Q w' :=
  ⟨fun h w' hw => h w' hw rfl, fun h w' hw _ => h w' hw⟩

theorem wp_put {hash : String} {content : Bytes} {k : Unit → Async α} :
    wp R G (ContentStore.put hash content >>= k) Q w ↔
      G w { w with contentStore := w.contentStore.set hash content } ∧
        ∀ w', R { w with contentStore := w.contentStore.set hash content } w' →
          wp R G (k ()) Q w' :=
  and_congr_right fun _ => wp_pause

theorem wp_read {path : Path} {k : Option Bytes → Async α} :
    wp R G (Files.read path >>= k) Q w ↔
      ∀ w₁, R w w₁ → ∀ w₂, R w₁ w₂ → wp R G (k (w₁.bytesAt path)) Q w₂ :=
  ⟨fun h w₁ h₁ w₂ h₂ => h w₁ h₁ rfl w₂ h₂ rfl, fun h w₁ h₁ _ w₂ h₂ _ => h w₁ h₁ w₂ h₂⟩

end Steps

end OpsBlobs.WorldEffects
