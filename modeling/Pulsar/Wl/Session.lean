import Pulsar.Lib.Runs
import Pulsar.Wl.Request

/-!
# The loop of the translator (`wlclient/main.c`)

`main` receives messages of the program, presents the scene, asks the window server for events and
flushes, in rounds without end.  A session is any order of these steps.
-/

namespace Pulsar.Wl

/-- What the translator does in a round of its loop. -/
inductive Act where
  | message (x : Ext) (m : Message)
  | receive (fds : List Nat)
  | present (x : Ext)
  | input (x : Ext) (e : WmEvent)
  | layout (x : Ext)
  | flush

/-- `send_keymap()`: the layout of the keyboard changed. -/
def sendKeymap (x : Ext) : W Unit := do
  (← get).dev.kbds.forM fun k => do
    flush
    sendKeymapTo x k

/-- `pump_wm()`, if there is a window. -/
def pump (x : Ext) (e : WmEvent) : W Unit := do
  whenever ((← get).win.haveApp = true) (pumpWm x e)

/-- A change of the layout is looked for while there is a keyboard. -/
def changeLayout (x : Ext) : W Unit := do
  whenever ((← get).dev.keyboardId ≠ 0) (sendKeymap x)

def act : Act → W Unit
  | .message x m => message x m
  | .receive fds => modify fun s => { s with inp.fds := (s.inp.fds ++ fds).take 32 }
  | .present x => present x
  | .input x e => pump x e
  | .layout x => changeLayout x
  | .flush => flush

/-- The state when `main` starts. -/
def start : Client where
  objs := Function.update (fun _ => Obj.zero) 0 (Obj.new 1 .display 1)
  out := ⟨[], 0, 0, 1⟩
  inp := ⟨[], []⟩
  win := { haveApp := false, w := 0, h := 0, cfgW := 0, cfgH := 0, title := bytesOf "Linux"
           appId := [], topSurface := 0, topXdg := 0, topLevel := 0, outW := 0, outH := 0 }
  dev := { ptrs := [], kbds := [], pointerId := 0, keyboardId := 0, kbSurf := 0
           winFocused := false, ptrSurf := 0, lastDown := false, swallowUp := false
           lastX := -1, lastY := -1 }
  scene := { zcount := 1, fb := fun _ => 0, base := none, baseW := 0, baseH := 0
             baseValid := false, wd := Box.none, pendCbs := [] }
  shm := ⟨[], []⟩

/-- The state after a step, if the process is still there. -/
def Client.next (s : Client) (a : Act) : Option Client :=
  match act a s with
  | .ok _ t => some t
  | .error _ _ => none

theorem Client.next_some {s t : Client} {a : Act} (h : s.next a = some t) : act a s = .ok () t := by
  unfold next at h
  split at h
  · rename_i u hu
    exact Option.some.inj h ▸ hu
  · exact absurd h (by simp)

/-- An event that tells nothing, with the pointer away. -/
def WmEvent.still : WmEvent where
  close := false
  focused := false
  changed := false
  w := 0
  h := 0
  mx := -1
  my := -1
  down := false
  click := false
  rclick := false
  wheel := 0
  key := 0
  mods := 0

/-- A system that answers nothing in particular. -/
def Ext.still : Ext where
  now := 0
  mmap := none
  shm := true
  pool := fun _ => 0
  alloc := true
  allocSt := true
  hello := (0, 0)
  commit := WmEvent.still
  screen := (0, 0)
  keymap := none

/-- The messages with which a program gets a registry (2), the compositor (3) and a surface (4). -/
def greeting : List Act :=
  [.message .still ⟨1, 1, [2]⟩,
    .message .still ⟨2, 0, [1, 14, 0x635f6c77, 0x6f706d6f, 0x6f746973, 0x72, 4, 3]⟩,
    .message .still ⟨3, 0, [4]⟩]

end Pulsar.Wl
