import Mathlib.Data.BitVec

/-! Reordering of received frames under a block ack agreement, in `net80211/ieee80211_input.c`.
Statistics and the inactivity timer are left out.  `none` as the outcome of a call is a loop that
does not end. -/

namespace Mbsd.Net80211.InputBa

def baMaxWinsz : Nat := 64

def baMaxWinmiss : Nat := 8

def seqSeqShift : Nat := 4

def rxiAmpduDone : BitVec 32 := 2

def low12 (x : Int) : Nat := (x % 4096).toNat

def seqLt (a b : Nat) : Prop := low12 (a - b) > 2048

instance (a b : Nat) : Decidable (seqLt a b) := inferInstanceAs (Decidable (_ > _))

/-- A data frame.  `num` counts the frames of the sender; the header has the low bits of it, and
the number of the fragment. -/
structure Mbuf where
  num : Nat
  frag : Fin 16
  deriving DecidableEq

def Mbuf.iSeq (m : Mbuf) : Nat := (m.num % 4096) <<< 4 + m.frag

def Mbuf.sn (m : Mbuf) : Nat := m.iSeq >>> seqSeqShift

structure Rxinfo where
  rxiFlags : BitVec 32
  rxiTstamp : BitVec 32
  rxiRssi : Int
  rxiChan : BitVec 8
  deriving DecidableEq

structure Slot where
  m : Option Mbuf
  rxi : Rxinfo

structure RxBa where
  buf : Nat → Slot
  winstart : Nat
  winend : Nat
  winsize : Nat
  head : Nat
  gapTo : Bool
  gapwait : Int
  winmiss : Nat
  missedsn : Nat

abbrev Up := Mbuf × Rxinfo

namespace RxBa

def front (ba : RxBa) : Option Mbuf := (ba.buf ba.head).m

def frontRxi (ba : RxBa) : Rxinfo := (ba.buf ba.head).rxi

def clear (ba : RxBa) : RxBa :=
  { ba with
    buf := Function.update ba.buf ba.head { ba.buf ba.head with m := none }
    gapwait := ba.gapwait - 1 }

def nextHead (ba : RxBa) : RxBa := { ba with head := (ba.head + 1) % baMaxWinsz }

def slide (ba : RxBa) : RxBa := { ba.nextHead with winstart := low12 (ba.winstart + 1) }

def setWinend (ba : RxBa) : RxBa :=
  { ba with winend := low12 (ba.winstart + ba.winsize - 1) }

end RxBa

/-- The loop of `ieee80211_input_ba_seq`, with the rounds that are left. -/
def inputBaSeqLoop (maxSeq : Nat) : Nat → RxBa → RxBa × List Up
  | 0, ba => (ba, [])
  | i + 1, ba =>
    match ba.front with
    | some m =>
      if ¬seqLt m.sn maxSeq then (ba, [])
      else
        let r := inputBaSeqLoop maxSeq i ba.clear.slide
        (r.1, (m, ba.frontRxi) :: r.2)
    | none => inputBaSeqLoop maxSeq i ba.slide

def inputBaSeq (ba : RxBa) (maxSeq : Nat) : RxBa × List Up :=
  let r := inputBaSeqLoop maxSeq ba.winsize ba
  (r.1.setWinend, r.2)

def inputBaFlushLoop : Nat → RxBa → Option (RxBa × List Up)
  | 0, _ => none
  | fuel + 1, ba =>
    match ba.front with
    | none => some (ba, [])
    | some m => (inputBaFlushLoop fuel ba.clear.slide).map fun r => (r.1, (m, ba.frontRxi) :: r.2)

def inputBaFlush (ba : RxBa) : Option (RxBa × List Up) :=
  if ba.front = none then some (ba, [])
  else
    (inputBaFlushLoop (baMaxWinsz + 1) ba).map fun r =>
      let ba := r.1.setWinend
      let ba := if ba.gapTo then { ba with gapTo := false } else ba
      (if ba.gapwait ≠ 0 then { ba with gapTo := true } else ba, r.2)

/-- The loop of `ieee80211_input_ba_gap_skip`, with the rounds that are left. -/
def inputBaGapSkipLoop : Nat → RxBa → RxBa × Nat
  | 0, ba => (ba, 0)
  | n + 1, ba =>
    if ba.front = none then
      let r := inputBaGapSkipLoop n ba.slide
      (r.1, r.2 + 1)
    else (ba, 0)

def inputBaGapSkip (ba : RxBa) : RxBa × Nat :=
  let r := inputBaGapSkipLoop ba.winsize ba
  (if r.2 > 0 then r.1.setWinend else r.1, r.2)

def inputBaGapTimeout (ba : RxBa) : Option (RxBa × List Up) :=
  let r := inputBaGapSkip { ba with gapTo := false }
  if r.2 ≠ 0 then inputBaFlush r.1 else some (r.1, [])

def baMoveWindowLoop : Nat → RxBa → RxBa × List Up
  | 0, ba => (ba, [])
  | count + 1, ba =>
    match ba.front with
    | some m =>
      let r := baMoveWindowLoop count ba.clear.nextHead
      (r.1, (m, ba.frontRxi) :: r.2)
    | none => baMoveWindowLoop count ba.nextHead

def baMoveWindow (ba : RxBa) (ssn : Nat) : Option (RxBa × List Up) :=
  let count := low12 (ssn - ba.winstart)
  let count := if count > ba.winsize then ba.winsize else count
  let r := baMoveWindowLoop count ba
  (inputBaFlush { r.1 with winstart := ssn }.setWinend).map fun f => (f.1, r.2 ++ f.2)

/-- The end of `ieee80211_bar_tid`, and of an ADDBA request for a protected agreement. -/
def barTid (ba : RxBa) (ssn : Nat) : Option (RxBa × List Up) :=
  if seqLt ba.winstart ssn then baMoveWindow ba ssn else some (ba, [])

/-- `ieee80211_input_ba` for a frame above the window.  The last component says whether the frame
is kept. -/
def inputBaAbove (ba : RxBa) (sn : Nat) : Option (RxBa × List Up × Bool) :=
  let count := low12 (sn - ba.winend)
  if count > ba.winsize then
    if ba.winmiss < baMaxWinmiss then
      some ({ ba with
        winmiss := if ba.missedsn = low12 (sn - 1) then ba.winmiss + 1 else 0
        missedsn := sn }, [], false)
    else
      (baMoveWindow { ba with winmiss := 0, missedsn := 0 } sn).map fun r => (r.1, r.2, true)
  else
    let r := inputBaSeq ba (low12 (ba.winstart + count))
    (inputBaFlush r.1).map fun f => (f.1, r.2 ++ f.2, true)

/-- `ieee80211_input_ba` for a frame in the window.  The last component says whether the frame is
stored; else it is freed. -/
def inputBaStore (ba : RxBa) (m : Mbuf) (rxi : Rxinfo) : Option (RxBa × List Up × Bool) :=
  let ba := { ba with winmiss := 0, missedsn := 0 }
  let idx := low12 (m.sn - ba.winstart)
  let idx := (ba.head + idx) % baMaxWinsz
  if (ba.buf idx).m ≠ none then some (ba, [], false)
  else
    let rxi := { rxi with rxiFlags := rxi.rxiFlags ||| rxiAmpduDone }
    let ba := { ba with
      buf := Function.update ba.buf idx ⟨some m, rxi⟩
      gapwait := ba.gapwait + 1 }
    let ba := if ba.front = none ∧ ba.gapwait = 1 then { ba with gapTo := true } else ba
    (inputBaFlush ba).map fun f => (f.1, f.2, true)

def inputBa (ba : RxBa) (m : Mbuf) (rxi : Rxinfo) : Option (RxBa × List Up × Bool) :=
  if seqLt m.sn ba.winstart then some (ba, [], false)
  else if seqLt ba.winend m.sn then do
    let r ← inputBaAbove ba m.sn
    if r.2.2 then (inputBaStore r.1 m rxi).map fun s => (s.1, r.2.1 ++ s.2.1, s.2.2)
    else some r
  else inputBaStore ba m rxi

/-- What `ieee80211_recv_addba_req` sets up for a new agreement. -/
def recvAddbaReq (ba : RxBa) (bufsz ssn : Nat) : RxBa :=
  let ba := { ba with gapTo := false, gapwait := 0, winsize := bufsz }
  let ba := if ba.winsize = 0 ∨ ba.winsize > baMaxWinsz then { ba with winsize := baMaxWinsz } else ba
  let ba := { ba with winstart := ssn }.setWinend
  { ba with buf := fun _ => ⟨none, 0, 0, 0, 0⟩, head := 0 }

end Mbsd.Net80211.InputBa
