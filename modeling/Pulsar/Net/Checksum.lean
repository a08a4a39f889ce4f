import Pulsar.Lib.Ones
import Pulsar.Net.Datagrams

/-!
# Checksums of what is sent (`net.rs`)

The bytes of the packets that `udp_send` and `tcp_segment` hand to `send_ip`, and of what `send_ip`
hands to the device.  No other function sends IP packets; there is no ICMP.

* `checksums`: in each packet sent the header, and the pseudo-header with what follows the header,
  add up to all ones; no sum that is taken on the way overflows.
-/

namespace Pulsar.Net

def OUR_IP : Ip := #v[10, 0, 2, 15]

/-- `checksum_acc`. -/
def checksumAcc (sum : UInt32) : List UInt8 → UInt32
  | x :: y :: data => checksumAcc (sum + (x.toUInt32 <<< 8 ||| y.toUInt32)) data
  | [x] => sum + x.toUInt32 <<< 8
  | [] => sum

/-- What one turn of `fold` makes of the sum. -/
theorem turn_toNat (sum : UInt32) : (sum >>> 16).toNat = sum.toNat / 65536 ∧
    ((sum &&& (0xFFFF : UInt32)) + sum >>> 16).toNat = sum.toNat % 65536 + sum.toNat / 65536 := by
  have hlow : (sum &&& (0xFFFF : UInt32)).toNat = sum.toNat % 65536 := by
    rw [UInt32.toNat_and]
    exact Nat.and_two_pow_sub_one_eq_mod sum.toNat 16
  have hhigh : (sum >>> 16).toNat = sum.toNat / 65536 := by
    rw [UInt32.toNat_shiftRight]
    exact Nat.shiftRight_eq_div_pow sum.toNat 16
  have hlt : sum.toNat < 4294967296 := sum.toNat_lt
  refine ⟨hhigh, ?_⟩
  rw [UInt32.toNat_add, hlow, hhigh]
  exact Nat.mod_eq_of_lt (by omega)

theorem shift_ne_zero {sum : UInt32} : sum >>> 16 ≠ 0 ↔ 65536 ≤ sum.toNat := by
  rw [ne_eq, ← UInt32.toNat_inj, (turn_toNat sum).1]
  change ¬ _ = 0 ↔ _
  omega

theorem fold_smaller {sum : UInt32} (h : sum >>> 16 ≠ 0) :
    ((sum &&& (0xFFFF : UInt32)) + sum >>> 16).toNat < sum.toNat := by
  have hle := shift_ne_zero.mp h
  rw [(turn_toNat sum).2]
  omega

/-- `fold`. -/
def fold (sum : UInt32) : UInt16 :=
  if _h : sum >>> 16 ≠ 0 then fold ((sum &&& (0xFFFF : UInt32)) + sum >>> 16) else ~~~ sum.toUInt16
termination_by sum.toNat
decreasing_by exact fold_smaller _h

/-- The header that `send_ip` builds, with the checksum `c`. -/
def ipHeader (proto : UInt8) (dst : Ip) (total : Nat) (c : UInt16) : List UInt8 :=
  [0x45, 0] ++ bytes16 (UInt16.ofNat total) ++ [0, 0, 0x40, 0, 64, proto] ++ bytes16 c ++
    OUR_IP.toList ++ dst.toList

/-- `send_ip`: the packet that goes into the frame, when the gateway is known. -/
def sendIp (gateway : Bool) (proto : UInt8) (dst : Ip) (l4 : List UInt8) : Option (List UInt8) :=
  let total := 20 + l4.length
  if gateway ∧ total ≤ 1500 then
    let c := fold (checksumAcc 0 (ipHeader proto dst total 0))
    some (ipHeader proto dst total c ++ l4)
  else none

/-- The sum that `l4_checksum` folds. -/
def l4Sum (dst : Ip) (proto : UInt8) (l4 : List UInt8) : UInt32 :=
  let sum := checksumAcc (checksumAcc 0 OUR_IP.toList) dst.toList
  checksumAcc (sum + (proto.toUInt32 + UInt32.ofNat l4.length)) l4

def l4Checksum (dst : Ip) (proto : UInt8) (l4 : List UInt8) : UInt16 := fold (l4Sum dst proto l4)

/-- The header that `udp_send` builds. -/
def udpHeader (srcPort dstPort : UInt16) (len : Nat) (c : UInt16) : List UInt8 :=
  bytes16 srcPort ++ bytes16 dstPort ++ bytes16 (UInt16.ofNat len) ++ bytes16 c

/-- `udp_send`. -/
def udpSend (gateway : Bool) (dst : Ip) (dstPort srcPort : UInt16) (data : List UInt8) :
    Option (List UInt8) :=
  if UDP_MAX < data.length then none
  else
    let u c := udpHeader srcPort dstPort (8 + data.length) c ++ data
    sendIp gateway 17 dst (u (l4Checksum dst 17 (u 0)))

/-- The header that `tcp_segment` builds of what is in the segment. -/
def tcpHeader (s : Sent) (c : UInt16) : List UInt8 :=
  let opts : List UInt8 := if has s.flags SYN then [2, 4, 0x05, 0xB4] else []
  bytes16 s.lport ++ bytes16 s.rport ++ bytes32 s.seq ++ bytes32 s.ack ++
    [UInt8.ofNat ((20 + opts.length) / 4) <<< 4, s.flags] ++ bytes16 (UInt16.ofNat s.wnd) ++
    bytes16 c ++ [0, 0] ++ opts

/-- `tcp_segment`: what becomes of a segment.  One that is longer than the array is not sent. -/
def tcpSend (gateway : Bool) (s : Sent) : Option (List UInt8) :=
  let seg c := tcpHeader s c ++ s.data
  if 1480 < (seg 0).length then none
  else sendIp gateway 6 s.rip (seg (l4Checksum s.rip 6 (seg 0)))

/-- The pseudo-header of a packet: its addresses, its protocol and the length of what it carries. -/
def pseudo (pkt : List UInt8) : List UInt8 :=
  (pkt.drop 12).take 8 ++ [0, pkt.getD 9 0] ++ bytes16 (UInt16.ofNat (pkt.length - 20))

/-- The header adds up to all ones, and so does what is behind it with the pseudo-header. -/
structure Summed (pkt : List UInt8) : Prop where
  ip : Ones.sum (Ones.words (pkt.take 20)) = 0xFFFF
  l4 : Ones.sum (Ones.words (pseudo pkt ++ pkt.drop 20)) = 0xFFFF

variable {gateway : Bool} {proto : UInt8} {dst : Ip} {s : UInt32} {a b l4 pkt : List UInt8}

/-! ### The accumulator -/

theorem high_toNat (x : UInt8) : (x.toUInt32 <<< 8).toNat = 256 * x.toNat := by
  have hx := x.toNat_lt
  rw [UInt32.toNat_shiftLeft, UInt8.toNat_toUInt32]
  change x.toNat <<< 8 % _ = _
  rw [Nat.shiftLeft_eq, Nat.mul_comm]
  exact Nat.mod_eq_of_lt (by omega)

theorem word_toNat (x y : UInt8) :
    (x.toUInt32 <<< 8 ||| y.toUInt32).toNat = 256 * x.toNat + y.toNat := by
  have hshift : 256 * x.toNat = x.toNat <<< 8 := by rw [Nat.shiftLeft_eq, Nat.mul_comm]
  rw [UInt32.toNat_or, high_toNat, UInt8.toNat_toUInt32, hshift]
  exact (Nat.shiftLeft_add_eq_or_of_lt y.toNat_lt x.toNat).symm

/-- **Without overflow** the accumulator grows by the words of the data. -/
theorem checksumAcc_toNat : ∀ {s : UInt32}, s.toNat + (Ones.words a).sum < 4294967296 →
    (checksumAcc s a).toNat = s.toNat + (Ones.words a).sum := by
  induction a using Ones.words.induct with
  | case1 x y l ih =>
      intro s h
      rw [Ones.words, List.sum_cons] at h
      have hlt : s.toNat + (256 * x.toNat + y.toNat) < 4294967296 := by omega
      have hstep : (s + (x.toUInt32 <<< 8 ||| y.toUInt32)).toNat =
          s.toNat + (256 * x.toNat + y.toNat) := by
        rw [UInt32.toNat_add, word_toNat]
        exact Nat.mod_eq_of_lt hlt
      rw [checksumAcc, ih (by omega), hstep, Ones.words, List.sum_cons]
      omega
  | case2 x =>
      intro s h
      rw [Ones.words, List.sum_singleton] at h
      rw [checksumAcc, UInt32.toNat_add, high_toNat, Ones.words, List.sum_singleton]
      exact Nat.mod_eq_of_lt h
  | case3 => exact fun _ => rfl

/-- **Bytes of an even number** may be added apart from those behind them. -/
theorem checksumAcc_append : ∀ {s : UInt32}, a.length % 2 = 0 →
    checksumAcc (checksumAcc s a) b = checksumAcc s (a ++ b) := by
  induction a using Ones.words.induct with
  | case1 x y l ih =>
      intro s h
      have heven : l.length % 2 = 0 := by
        rw [List.length_cons, List.length_cons] at h
        omega
      exact ih heven
  | case2 x => exact fun h => absurd h (by simp)
  | case3 => exact fun _ => rfl

/-- **`fold`** gives what is missing to a multiple of 65535 that is not zero. -/
theorem fold_toNat (sum : UInt32) : (sum.toNat + (fold sum).toNat) % 65535 = 0 ∧
    sum.toNat + (fold sum).toNat ≠ 0 := by
  induction sum using fold.induct with
  | case1 sum h ih =>
      have hle := shift_ne_zero.mp h
      rw [(turn_toNat sum).2] at ih
      rw [fold, dif_pos h]
      omega
  | case2 sum h =>
      have hlt : sum.toNat < 65536 := by
        rw [shift_ne_zero] at h
        omega
      have hnot : (~~~ sum.toUInt16).toNat = 65535 - sum.toNat := by
        rw [UInt16.toNat_not, UInt32.toNat_toUInt16]
        change 65536 - 1 - sum.toNat % 65536 = _
        omega
      rw [fold, dif_neg h, hnot]
      omega

/-! ### The sums of a packet -/

theorem words_bytes16 (c : UInt16) (l : List UInt8) :
    Ones.words (bytes16 c ++ l) = c.toNat :: Ones.words l := by
  have hc := c.toNat_lt
  have hhigh : (c >>> 8).toUInt8.toNat = c.toNat / 256 := by
    rw [UInt16.toNat_toUInt8, UInt16.toNat_shiftRight]
    change (c.toNat >>> 8) % 256 = _
    rw [Nat.shiftRight_eq_div_pow]
    exact Nat.mod_eq_of_lt (by omega)
  have hlow : c.toUInt8.toNat = c.toNat % 256 := UInt16.toNat_toUInt8 c
  have hword : 256 * (c >>> 8).toUInt8.toNat + c.toUInt8.toNat = c.toNat := by omega
  exact congrArg (· :: Ones.words l) hword

/-- **Where the checksum is written** into a field that was zero when the sum was taken, the whole
adds up to all ones. -/
theorem sum_fold {sum : UInt32} (heven : a.length % 2 = 0)
    (hsum : sum.toNat = (Ones.words (a ++ bytes16 0 ++ b)).sum) :
    Ones.sum (Ones.words (a ++ bytes16 (fold sum) ++ b)) = 0xFFFF := by
  obtain ⟨hmod, hne⟩ := fold_toNat sum
  have hfield : ∀ c, (Ones.words (a ++ bytes16 c ++ b)).sum =
      (Ones.words a).sum + c.toNat + (Ones.words b).sum := by
    intro c
    rw [List.append_assoc, Ones.words_append heven, words_bytes16, List.sum_append, List.sum_cons,
      Nat.add_assoc]
  rw [hfield, UInt16.toNat_zero] at hsum
  refine (Ones.sum_eq_top Ones.words_le).mpr ?_
  rw [hfield]
  omega

/-- **The sum of an IP header** does not overflow. -/
theorem ipHeader_toNat (proto : UInt8) (dst : Ip) (total : Nat) :
    (checksumAcc 0 (ipHeader proto dst total 0)).toNat =
      (Ones.words (ipHeader proto dst total 0)).sum := by
  have hlen : (ipHeader proto dst total 0).length = 20 := by simp [ipHeader, bytes16]
  have hle := Ones.words_sum_le (ipHeader proto dst total 0)
  rw [hlen] at hle
  rw [checksumAcc_toNat (by rw [UInt32.toNat_zero]; omega), UInt32.toNat_zero, Nat.zero_add]

/-- The pseudo-header, of its fields. -/
def pseudoHeader (dst : Ip) (proto : UInt8) (len : Nat) : List UInt8 :=
  OUR_IP.toList ++ dst.toList ++ [0, proto] ++ bytes16 (UInt16.ofNat len)

/-- **The sum over the pseudo-header** and what follows the header does not overflow. -/
theorem l4Sum_toNat (h : l4.length ≤ 1480) : (l4Sum dst proto l4).toNat =
    (Ones.words (pseudoHeader dst proto l4.length ++ l4)).sum := by
  have hour : (Ones.words OUR_IP.toList).sum ≤ 65535 * 4 := Ones.words_sum_le _
  have hdst : (Ones.words dst.toList).sum ≤ 65535 * 4 := by
    have hle := Ones.words_sum_le dst.toList
    rwa [Vector.length_toList] at hle
  have hl4 := Ones.words_sum_le l4
  have hproto := proto.toNat_lt
  have hlen : (UInt16.ofNat l4.length).toNat = l4.length := by
    rw [UInt16.toNat_ofNat']
    exact Nat.mod_eq_of_lt (by omega)
  have hlen' : (UInt32.ofNat l4.length).toNat = l4.length := by
    rw [UInt32.toNat_ofNat']
    exact Nat.mod_eq_of_lt (by omega)
  have hwords : (Ones.words (pseudoHeader dst proto l4.length ++ l4)).sum =
      (Ones.words OUR_IP.toList).sum + (Ones.words dst.toList).sum +
        (proto.toNat + l4.length) + (Ones.words l4).sum := by
    have hdst4 : dst.toList.length % 2 = 0 := by rw [Vector.length_toList]
    have hproto2 : [0, proto].length % 2 = 0 := by simp
    rw [pseudoHeader, List.append_assoc, List.append_assoc, List.append_assoc,
      Ones.words_append (by rfl), Ones.words_append hdst4, Ones.words_append hproto2,
      words_bytes16, hlen, List.sum_append, List.sum_append, List.sum_append, List.sum_cons]
    have hzero : (Ones.words [0, proto]).sum = proto.toNat := by simp [Ones.words]
    omega
  have hfirst : (checksumAcc 0 OUR_IP.toList).toNat = (Ones.words OUR_IP.toList).sum := by
    rw [checksumAcc_toNat (by rw [UInt32.toNat_zero]; omega), UInt32.toNat_zero, Nat.zero_add]
  have hsecond : (checksumAcc (checksumAcc 0 OUR_IP.toList) dst.toList).toNat =
      (Ones.words OUR_IP.toList).sum + (Ones.words dst.toList).sum := by
    rw [checksumAcc_toNat (by rw [hfirst]; omega), hfirst]
  have hthird : (checksumAcc (checksumAcc 0 OUR_IP.toList) dst.toList +
      (proto.toUInt32 + UInt32.ofNat l4.length)).toNat = (Ones.words OUR_IP.toList).sum +
        (Ones.words dst.toList).sum + (proto.toNat + l4.length) := by
    have hlt : proto.toNat + l4.length < 4294967296 := by omega
    have hlt' : (Ones.words OUR_IP.toList).sum + (Ones.words dst.toList).sum +
        (proto.toNat + l4.length) < 4294967296 := by omega
    rw [UInt32.toNat_add, UInt32.toNat_add, hsecond, hlen', UInt8.toNat_toUInt32,
      Nat.mod_eq_of_lt hlt]
    exact Nat.mod_eq_of_lt hlt'
  rw [hwords, l4Sum, checksumAcc_toNat (by rw [hthird]; omega), hthird]

/-! ### The packets sent -/

theorem ipHeader_length (proto : UInt8) (dst : Ip) (total : Nat) (c : UInt16) :
    (ipHeader proto dst total c).length = 20 := by
  simp [ipHeader, bytes16]

theorem pseudo_packet (proto : UInt8) (dst : Ip) (total : Nat) (c : UInt16) (l4 : List UInt8) :
    pseudo (ipHeader proto dst total c ++ l4) = pseudoHeader dst proto l4.length := by
  have hpkt : ipHeader proto dst total c ++ l4 =
      ([0x45, 0] ++ bytes16 (UInt16.ofNat total) ++ [0, 0, 0x40, 0, 64, proto] ++ bytes16 c) ++
        (OUR_IP.toList ++ dst.toList ++ l4) := by
    simp only [ipHeader, List.append_assoc]
  have hlen : (OUR_IP.toList ++ dst.toList).length = 8 := by
    rw [List.length_append, Vector.length_toList, Vector.length_toList]
  have haddrs : ((ipHeader proto dst total c ++ l4).drop 12).take 8 =
      OUR_IP.toList ++ dst.toList := by
    rw [hpkt, List.drop_left' (by simp [bytes16]), List.take_left' hlen]
  have hproto : (ipHeader proto dst total c ++ l4).getD 9 0 = proto := by
    simp [hpkt, bytes16]
  rw [pseudo, haddrs, hproto, List.length_append, ipHeader_length, Nat.add_sub_cancel_left]
  rfl

/-- **What `send_ip` sends** is right where its caller filled the checksum of what it carries. -/
theorem summed_sendIp (h : sendIp gateway proto dst l4 = some pkt)
    (hl4 : Ones.sum (Ones.words (pseudoHeader dst proto l4.length ++ l4)) = 0xFFFF) :
    Summed pkt := by
  obtain ⟨-, h⟩ := (Option.ite_none_right_eq_some ..).mp h
  obtain rfl := Option.some.inj h
  constructor
  · rw [List.take_left' (ipHeader_length ..)]
    have heven : ([0x45, 0] ++ bytes16 (UInt16.ofNat (20 + l4.length)) ++
        [0, 0, 0x40, 0, 64, proto]).length % 2 = 0 := by simp [bytes16]
    have hsum := ipHeader_toNat proto dst (20 + l4.length)
    simp only [ipHeader, List.append_assoc] at hsum heven ⊢
    have hfold := sum_fold (b := OUR_IP.toList ++ dst.toList) heven (by
      simpa only [List.append_assoc] using hsum)
    simpa only [List.append_assoc] using hfold
  · rwa [pseudo_packet, List.drop_left' (ipHeader_length ..)]

/-- **What is sent with its checksum** in a field that was zero when it was taken. -/
theorem summed_filled (heven : a.length % 2 = 0) (hlen : (a ++ bytes16 0 ++ b).length ≤ 1480)
    (h : sendIp gateway proto dst
      (a ++ bytes16 (l4Checksum dst proto (a ++ bytes16 0 ++ b)) ++ b) = some pkt) :
    Summed pkt := by
  have hbytes : ∀ c, (a ++ bytes16 c ++ b).length = (a ++ bytes16 0 ++ b).length := by
    intro c
    simp only [List.length_append, bytes16, List.length_cons, List.length_nil]
  have hpre : (pseudoHeader dst proto (a ++ bytes16 0 ++ b).length ++ a).length % 2 = 0 := by
    simp [pseudoHeader, bytes16, Vector.length_toList]
    omega
  refine summed_sendIp h ?_
  have hsum := @l4Sum_toNat proto dst _ hlen
  have hfold := sum_fold (b := b) hpre (by simpa only [List.append_assoc] using hsum)
  rw [hbytes]
  simpa only [List.append_assoc, l4Checksum] using hfold

theorem sendIp_isSome (proto : UInt8) (dst : Ip) (h : l4.length ≤ 1480) :
    (sendIp true proto dst l4).isSome = true := by
  rw [sendIp, if_pos ⟨rfl, by omega⟩]
  rfl

theorem tcpHeader_length (s : Sent) (c c' : UInt16) :
    (tcpHeader s c).length = (tcpHeader s c').length := by
  simp only [tcpHeader, List.length_append, bytes16, List.length_cons, List.length_nil]

/-- **In each packet sent**, and one is sent whatever the data that fit, the sums are all ones; and
no sum overflows, nor depends on where the header ends. -/
theorem checksums :
    (∀ gateway dst dstPort srcPort data pkt,
      udpSend gateway dst dstPort srcPort data = some pkt → Summed pkt) ∧
    (∀ gateway s pkt, tcpSend gateway s = some pkt → Summed pkt) ∧
    (∀ dst dstPort srcPort data, data.length ≤ UDP_MAX →
      (udpSend true dst dstPort srcPort data).isSome = true) ∧
    (∀ s, (tcpHeader s 0 ++ s.data).length ≤ 1480 → (tcpSend true s).isSome = true) ∧
    (∀ proto dst total, (checksumAcc 0 (ipHeader proto dst total 0)).toNat =
      (Ones.words (ipHeader proto dst total 0)).sum) ∧
    (∀ dst proto l4, l4.length ≤ 1480 → (l4Sum dst proto l4).toNat =
      (Ones.words (pseudoHeader dst proto l4.length ++ l4)).sum) ∧
    ∀ s a b, a.length % 2 = 0 → checksumAcc (checksumAcc s a) b = checksumAcc s (a ++ b) := by
  refine ⟨?_, ?_, ?_, ?_, ipHeader_toNat, fun _ _ _ => l4Sum_toNat,
    fun _ _ _ => checksumAcc_append⟩
  · intro gateway dst dstPort srcPort data pkt h
    obtain ⟨hle, h⟩ := (Option.ite_none_left_eq_some ..).mp h
    have hmax : data.length ≤ 1472 := Nat.le_of_not_lt hle
    refine summed_filled (a := bytes16 srcPort ++ bytes16 dstPort ++
      bytes16 (UInt16.ofNat (8 + data.length))) (b := data) (by simp [bytes16]) ?_ h
    simp only [List.length_append, bytes16, List.length_cons, List.length_nil]
    omega
  · intro gateway s pkt h
    obtain ⟨hle, h⟩ := (Option.ite_none_left_eq_some ..).mp h
    let opts : List UInt8 := if has s.flags SYN then [2, 4, 0x05, 0xB4] else []
    let front := bytes16 s.lport ++ bytes16 s.rport ++ bytes32 s.seq ++ bytes32 s.ack ++
      [UInt8.ofNat ((20 + opts.length) / 4) <<< 4, s.flags] ++ bytes16 (UInt16.ofNat s.wnd)
    have hseg : ∀ c, tcpHeader s c ++ s.data = front ++ bytes16 c ++ ([0, 0] ++ opts ++ s.data) := by
      intro c
      simp only [tcpHeader, front, opts, List.append_assoc]
    simp only [hseg] at hle h
    exact summed_filled (by simp [front, bytes16, bytes32]) (Nat.le_of_not_lt hle) h
  · intro dst dstPort srcPort data hle
    have hmax : data.length ≤ 1472 := hle
    rw [udpSend, if_neg (Nat.not_lt.mpr hle)]
    refine sendIp_isSome _ _ ?_
    simp only [udpHeader, List.length_append, bytes16, List.length_cons, List.length_nil]
    omega
  · intro s hle
    rw [tcpSend, if_neg (Nat.not_lt.mpr hle)]
    refine sendIp_isSome _ _ ?_
    rw [List.length_append] at hle ⊢
    rwa [tcpHeader_length s _ 0]

/-- What is sent when the system starts, without its text. -/
theorem checksums_hello : ∃ pkt, udpSend true GW_IP 9 40000 [80, 117, 108] = some pkt ∧
    Summed pkt := by
  obtain ⟨hudp, -, hsent, -⟩ := checksums
  obtain ⟨pkt, hpkt⟩ := Option.isSome_iff_exists.mp
    (hsent GW_IP 9 40000 [80, 117, 108] (by decide))
  exact ⟨pkt, hpkt, hudp true GW_IP 9 40000 _ pkt hpkt⟩

end Pulsar.Net
