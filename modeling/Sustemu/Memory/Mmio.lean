import Sustemu.Memory.Vmem

/-!
# Devices behind the memory map

The table of `mmio.c` and the framebuffer of `gpu.c`. A device is a window of
addresses, the space behind it and a callback. The callback may fail an
assertion; a read calls it before it looks at the space, a write after it has
written.
-/

set_option autoImplicit false

namespace Sustemu

open Lib

/-- `CONFIG_FB_ADDR`. -/
def fbAddr : Nat := 0xa1000000

/-- `FB_SIZE`. -/
def fbSize : Nat := 400 * 300 * 4

/-- The spaces of the devices, the framebuffer, and what else the callbacks use. -/
structure IoState (γ : Type) where
  space : Nat → ByteMem
  framebuffer : ByteMem
  rest : γ

/-- A window `[low, high]` with its callback of offset, width and direction. -/
structure IOMap (γ : Type) where
  low : Nat
  high : Nat
  callback : Nat → Nat → Bool → IoState γ → Option (IoState γ)

/-- The registered devices, and whether `init_vga` has set `g_fb_base`. -/
structure Io (γ : Type) where
  maps : List (IOMap γ)
  fbBase : Bool

namespace Io

variable {γ : Type} (io : Io γ)

def mapInside (map : IOMap γ) (addr : Nat) : Bool := decide (map.low ≤ addr) && decide (addr ≤ map.high)

def findMapidByAddr (addr : Nat) : Option Nat := io.maps.findIdx? fun map => mapInside map addr

def inFramebuffer (addr : Nat) : Bool := io.fbBase && decide (fbAddr ≤ addr) && decide (addr < fbAddr + fbSize)

/-- The registered window that `addr` falls into first. -/
def fetchMmioMap (addr : Nat) : Option (Nat × IOMap γ) := do
  let id ← io.findMapidByAddr addr
  let map ← io.maps[id]?
  some (id, map)

def mapRead (id : Nat) (map : IOMap γ) (s : IoState γ) (addr len : Nat) : Option (Word × IoState γ) := do
  let offset := addr - map.low
  let s ← map.callback offset len false s
  some (hostRead (s.space id) offset len, s)

def mapWrite (id : Nat) (map : IOMap γ) (s : IoState γ) (addr len : Nat) (data : Word) : Option (IoState γ) :=
  let offset := addr - map.low
  map.callback offset len true
    { s with space := setAt s.space id (hostWrite (s.space id) offset len data) }

/-- What `paddr_read` and `paddr_write` do outside physical memory. -/
def devices : Devices (IoState γ) where
  read := fun s addr len =>
    if io.inFramebuffer addr.toNat then some (hostRead s.framebuffer (addr.toNat - fbAddr) len, s)
    else do
      let (id, map) ← io.fetchMmioMap addr.toNat
      mapRead id map s addr.toNat len
  write := fun s addr len data =>
    if io.inFramebuffer addr.toNat then
      some { s with framebuffer := hostWrite s.framebuffer (addr.toNat - fbAddr) len data }
    else do
      let (id, map) ← io.fetchMmioMap addr.toNat
      mapWrite id map s addr.toNat len data

end Io

end Sustemu
