import RainRuntime.Types
import Mathlib.Data.List.TakeWhile

/-!
# Socket addresses and their text

`from_ipv4` and `from_ipv6` get a view of bytes and hand a C string to `inet_pton`, which reads
up to the first NUL. What a text denotes is a parameter: all that is known of it is that the
text of an address has no NUL in it and how many bytes it denotes.
-/

namespace RainRuntime.Addresses

/-! ## Storage and byte order -/

abbrev Storage := Fin 128 → UInt8

namespace Storage

def load (m : Storage) (start len : ℕ) : List UInt8 := ((List.ofFn m).drop start).take len

def store (m : Storage) (start : ℕ) (bytes : List UInt8) : Storage :=
  fun i => if start ≤ i then bytes[i - start]?.getD (m i) else m i

theorem load_store {m : Storage} {start : ℕ} {bytes : List UInt8}
    (h : start + bytes.length ≤ 128) : (m.store start bytes).load start bytes.length = bytes := by
  apply List.ext_getElem
  · simp only [load, List.length_take, List.length_drop, List.length_ofFn]
    omega
  · intro i _ hi
    simp only [load, store, List.getElem_take, List.getElem_drop, List.getElem_ofFn]
    rw [if_pos (Nat.le_add_right _ _), Nat.add_sub_cancel_left, List.getElem?_eq_getElem hi]
    rfl

theorem load_store_of_disjoint {m : Storage} {start at' len : ℕ} {bytes : List UInt8}
    (h : at' + len ≤ start ∨ start + bytes.length ≤ at') :
    (m.store start bytes).load at' len = m.load at' len := by
  apply List.ext_getElem
  · simp only [load, List.length_take, List.length_drop, List.length_ofFn]
  · intro i hi _
    have hlen : i < len := by
      simp only [load, List.length_take] at hi
      omega
    simp only [load, store, List.getElem_take, List.getElem_drop, List.getElem_ofFn]
    split_ifs with hle
    · rw [List.getElem?_eq_none (by omega)]
      rfl
    · rfl

end Storage

inductive Endian where
  | little
  | big

def swap16 (x : UInt16) : UInt16 := x % 256 * 256 + x / 256

theorem swap16_toNat (x : UInt16) :
    (swap16 x).toNat = x.toNat % 256 * 256 + x.toNat / 256 := by
  have := x.toNat_lt
  simp only [swap16, UInt16.toNat_add, UInt16.toNat_mul, UInt16.toNat_mod, UInt16.toNat_div,
    UInt16.reduceToNat]
  omega

theorem swap16_swap16 (x : UInt16) : swap16 (swap16 x) = x := by
  apply UInt16.toNat_inj.mp
  rw [swap16_toNat, swap16_toNat]
  have := x.toNat_lt
  omega

namespace Endian

def bytes : Endian → UInt16 → List UInt8
  | .little, x => [x.toUInt8, (x / 256).toUInt8]
  | .big, x => [(x / 256).toUInt8, x.toUInt8]

def word : Endian → List UInt8 → UInt16
  | .little, b => (b.getD 0 0).toUInt16 + (b.getD 1 0).toUInt16 * 256
  | .big, b => (b.getD 1 0).toUInt16 + (b.getD 0 0).toUInt16 * 256

def htons : Endian → UInt16 → UInt16
  | .little, x => swap16 x
  | .big, x => x

def ntohs : Endian → UInt16 → UInt16
  | .little, x => swap16 x
  | .big, x => x

@[simp] theorem ntohs_htons (e : Endian) (x : UInt16) : e.ntohs (e.htons x) = x := by
  cases e with
  | little => exact swap16_swap16 x
  | big => rfl

@[simp] theorem bytes_length (e : Endian) (x : UInt16) : (e.bytes x).length = 2 := by
  cases e <;> rfl

@[simp] theorem word_bytes (e : Endian) (x : UInt16) : e.word (e.bytes x) = x := by
  apply UInt16.toNat_inj.mp
  have := x.toNat_lt
  cases e <;> simp [word, bytes] <;> omega

end Endian

/-! ## Texts -/

/-- The texts of the addresses of a family, and the `size` bytes that each denotes. -/
structure TextForm (size : ℕ) where
  denote : List UInt8 → Option (List UInt8)
  length_eq : ∀ s a, denote s = some a → a.length = size
  no_nul : ∀ s a, denote s = some a → 0 ∉ s

def cString (buffer : List UInt8) : List UInt8 := buffer.takeWhile (· ≠ 0)

/-- `inet_pton` on a buffer that holds a NUL. -/
def TextForm.inetPton {size : ℕ} (T : TextForm size) (buffer : List UInt8) : Option (List UInt8) :=
  T.denote (cString buffer)

def cStr (s : List UInt8) : List UInt8 := s ++ [0]

theorem cString_cStr (s : List UInt8) : cString (cStr s) = cString s := by
  induction s with
  | nil => rfl
  | cons b s ih =>
    rw [cStr, cString, cString, List.cons_append, List.takeWhile_cons, List.takeWhile_cons]
    split
    · exact congrArg _ ih
    · rfl

theorem cString_of_no_nul {s : List UInt8} (h : 0 ∉ s) : cString s = s := by
  apply List.takeWhile_eq_self_iff.mpr
  intro b hb
  have hne : b ≠ 0 := fun he => h (he ▸ hb)
  exact decide_eq_true hne

/-! ## Dotted quads -/

/-- `inet_pton` within an IPv4 text: the octets that are complete, and the one it is in. -/
structure Quad where
  octets : List UInt8
  current : Option ℕ

namespace Quad

/-- A digit continues the octet, unless it would have a leading zero or exceed 255. -/
def digit (q : Quad) (d : ℕ) : Option Quad :=
  match q.current with
  | none => if q.octets.length < 4 then some { q with current := some d } else none
  | some n =>
    if n = 0 ∨ 255 < n * 10 + d then none else some { q with current := some (n * 10 + d) }

def dot (q : Quad) : Option Quad :=
  match q.current with
  | none => none
  | some n => if q.octets.length < 3 then some ⟨q.octets ++ [UInt8.ofNat n], none⟩ else none

def step (q : Quad) (b : UInt8) : Option Quad :=
  if 48 ≤ b ∧ b ≤ 57 then q.digit (b.toNat - 48) else if b = 46 then q.dot else none

def finish (q : Quad) : Option (List UInt8) :=
  match q.current with
  | none => none
  | some n => if q.octets.length = 3 then some (q.octets ++ [UInt8.ofNat n]) else none

theorem foldlM_of_nul {s : List UInt8} (h : 0 ∈ s) (q : Quad) : s.foldlM step q = none := by
  induction s generalizing q with
  | nil => cases h
  | cons b s ih =>
    rw [List.foldlM_cons]
    rcases List.mem_cons.mp h with rfl | hs
    · rfl
    · cases step q b with
      | none => rfl
      | some q' => exact ih hs q'

theorem finish_length {q : Quad} {a : List UInt8} (h : q.finish = some a) : a.length = 4 := by
  rw [finish] at h
  cases hn : q.current with
  | none =>
    rw [hn] at h
    cases h
  | some n =>
    rw [hn] at h
    dsimp only at h
    split_ifs at h with hlen
    rw [← Option.some.inj h, List.length_append, hlen]
    rfl

end Quad

def dottedQuad : TextForm 4 where
  denote s := (s.foldlM Quad.step ⟨[], none⟩).bind Quad.finish
  length_eq := by
    intro s a h
    obtain ⟨q, -, hq⟩ := Option.bind_eq_some_iff.mp h
    exact Quad.finish_length hq
  no_nul := by
    intro s a h hnul
    rw [Quad.foldlM_of_nul hnul] at h
    cases h

/-! ## Groups of hex digits -/

def hexDigit (b : UInt8) : Option ℕ :=
  if 48 ≤ b ∧ b ≤ 57 then some (b.toNat - 48)
  else if 97 ≤ b ∧ b ≤ 102 then some (b.toNat - 87)
  else if 65 ≤ b ∧ b ≤ 70 then some (b.toNat - 55)
  else none

/-- `inet_pton` within an IPv6 text: the bytes of the groups that are complete, how many of them
stand before `::`, and the digits of the group it is in. -/
structure Groups where
  bytes : List UInt8
  gap : Option ℕ
  digits : List ℕ

namespace Groups

def close (g : Groups) : Option Groups :=
  let value := g.digits.foldl (16 * · + ·) 0
  if g.bytes.length + 2 ≤ 16 then
    some ⟨g.bytes ++ [UInt8.ofNat (value / 256), UInt8.ofNat (value % 256)], g.gap, []⟩
  else none

def colon (g : Groups) (last : Bool) : Option Groups :=
  if g.digits = [] then
    if g.gap.isSome then none else some { g with gap := some g.bytes.length }
  else if last then none
  else g.close

/-- A group with a dot in it starts the dotted quad that ends the text. -/
def scan (g : Groups) (group : List UInt8) : List UInt8 → Option Groups
  | [] => if g.digits = [] then some g else g.close
  | b :: s =>
    match hexDigit b with
    | some d =>
      if g.digits.length = 4 then none else scan { g with digits := g.digits ++ [d] } group s
    | none =>
      if b = 58 then (g.colon s.isEmpty).bind fun g' => scan g' s s
      else if b = 46 ∧ g.bytes.length + 4 ≤ 16 then
        (dottedQuad.denote group).map fun quad => ⟨g.bytes ++ quad, g.gap, []⟩
      else none

def finish (g : Groups) : Option (List UInt8) :=
  match g.gap with
  | none => if g.bytes.length = 16 then some g.bytes else none
  | some n =>
    if g.bytes.length < 16 then
      some (g.bytes.take n ++ List.replicate (16 - g.bytes.length) 0 ++ g.bytes.drop n)
    else none

def ofText (s : List UInt8) : Option (List UInt8) :=
  (scan ⟨[], none, []⟩ s s).bind finish

theorem scan_of_nul {s group : List UInt8} (h : 0 ∈ s) (hgroup : 0 ∈ group) (g : Groups) :
    g.scan group s = none := by
  induction s generalizing g group with
  | nil => cases h
  | cons b s ih =>
    rw [scan]
    rcases List.mem_cons.mp h with rfl | hs
    · rfl
    · cases hexDigit b with
      | some d => exact ite_eq_left_iff.mpr fun _ => ih hs hgroup _
      | none =>
        dsimp only
        split_ifs
        · exact Option.bind_eq_none_iff.mpr fun g' _ => ih hs hs g'
        · rw [Option.map_eq_none_iff, Option.eq_none_iff_forall_ne_some]
          exact fun quad hquad => dottedQuad.no_nul group quad hquad hgroup
        · rfl

theorem finish_length {g : Groups} {a : List UInt8} (h : g.finish = some a) : a.length = 16 := by
  rw [finish] at h
  split at h
  · split_ifs at h with hlen
    rw [← Option.some.inj h, hlen]
  · split_ifs at h with hlen
    rw [← Option.some.inj h]
    simp only [List.length_append, List.length_take, List.length_replicate, List.length_drop]
    omega

end Groups

/-- A text that starts with a colon starts with two, and the first of them is skipped. -/
def hexGroups : TextForm 16 where
  denote s :=
    if s.head? = some 58 then
      if s.tail.head? = some 58 then Groups.ofText s.tail else none
    else Groups.ofText s
  length_eq := by
    intro s a h
    have hof : ∀ t, Groups.ofText t = some a → a.length = 16 := by
      intro t ht
      obtain ⟨g, -, hg⟩ := Option.bind_eq_some_iff.mp ht
      exact Groups.finish_length hg
    split_ifs at h
    · exact hof _ h
    · exact hof _ h
  no_nul := by
    intro s a h hnul
    have hof : ∀ t, 0 ∈ t → Groups.ofText t = none := by
      intro t ht
      rw [Groups.ofText, Groups.scan_of_nul ht ht, Option.bind_none]
    split_ifs at h with hhead
    · obtain ⟨s', rfl⟩ := List.head?_eq_some_iff.mp hhead
      rw [List.tail_cons, hof s' ((List.mem_cons.mp hnul).resolve_left (by decide))] at h
      cases h
    · rw [hof _ hnul] at h
      cases h

/-! ## Addresses -/

/-- An address family: its number, where `sockaddr_in` or `sockaddr_in6` has the address, and the
text of the error. -/
structure Family where
  number : UInt16
  offset : ℕ
  size : ℕ
  complaint : String
  after_port : 4 ≤ offset
  fits : offset + size ≤ 128

def afInet : Family := ⟨2, 4, 4, "invalid IPv4 address: ", by decide, by decide⟩

def afInet6 : Family := ⟨10, 8, 16, "invalid IPv6 address: ", by decide, by decide⟩

structure SocketAddress where
  storage : Storage

namespace SocketAddress

def empty : SocketAddress := ⟨fun _ => 0⟩

def fill (e : Endian) (F : Family) (port : UInt16) (address : List UInt8) : SocketAddress :=
  ⟨((empty.storage.store 0 (e.bytes F.number)).store 2 (e.bytes (e.htons port))).store F.offset
    address⟩

def fromIp (e : Endian) (F : Family) (T : TextForm F.size) (ip : List UInt8) (port : UInt16) :
    Result SocketAddress :=
  match T.inetPton (cStr ip) with
  | some address => .ok (fill e F port address)
  | none => .error ⟨.invalidArgument, .naming F.complaint ip⟩

def fromIpv4 (e : Endian) (T : TextForm 4) (ip : List UInt8) (port : UInt16) :
    Result SocketAddress :=
  fromIp e afInet T ip port

def fromIpv6 (e : Endian) (T : TextForm 16) (ip : List UInt8) (port : UInt16) :
    Result SocketAddress :=
  fromIp e afInet6 T ip port

def any (e : Endian) (port : UInt16) : SocketAddress := fill e afInet port [0, 0, 0, 0]

def loopback (e : Endian) (port : UInt16) : SocketAddress := fill e afInet port [127, 0, 0, 1]

def family (e : Endian) (a : SocketAddress) : UInt16 := e.word (a.storage.load 0 2)

def port (e : Endian) (a : SocketAddress) : UInt16 :=
  if a.family e = afInet.number then e.ntohs (e.word (a.storage.load 2 2))
  else if a.family e = afInet6.number then e.ntohs (e.word (a.storage.load 2 2))
  else 0

def address (F : Family) (a : SocketAddress) : List UInt8 := a.storage.load F.offset F.size

section Fields
variable {e : Endian} {F : Family} {p : UInt16} {bytes : List UInt8}

theorem family_fill : (fill e F p bytes).family e = F.number := by
  have hF := F.after_port
  rw [family, fill, Storage.load_store_of_disjoint (Or.inl (by omega)),
    Storage.load_store_of_disjoint (Or.inl (by omega)), ← e.bytes_length F.number,
    Storage.load_store (by simp), Endian.word_bytes]

theorem port_fill (hF : F = afInet ∨ F = afInet6) : (fill e F p bytes).port e = p := by
  have hport : (fill e F p bytes).storage.load 2 2 = e.bytes (e.htons p) := by
    have hafter := F.after_port
    rw [fill, Storage.load_store_of_disjoint (Or.inl (by omega)),
      ← e.bytes_length (e.htons p), Storage.load_store (by simp)]
  rw [port, family_fill, hport, Endian.word_bytes, Endian.ntohs_htons]
  rcases hF with rfl | rfl <;> rfl

theorem address_fill (hlen : bytes.length = F.size) :
    (fill e F p bytes).address F = bytes := by
  have hfits := F.fits
  rw [address, fill, ← hlen, Storage.load_store (by omega)]

end Fields

theorem fromIp_eq_ok {e : Endian} {F : Family} {T : TextForm F.size} {ip : List UInt8}
    {p : UInt16} {a : SocketAddress} : fromIp e F T ip p = .ok a ↔
      ∃ bytes, T.denote (cString ip) = some bytes ∧ a = fill e F p bytes := by
  rw [fromIp, TextForm.inetPton, cString_cStr]
  cases T.denote (cString ip) with
  | none => simp
  | some bytes => simp [eq_comm]

def AcceptsWhole (e : Endian) (F : Family) (T : TextForm F.size)
    (parse : List UInt8 → UInt16 → Result SocketAddress) (s : List UInt8) (p : UInt16) : Prop :=
  ((∃ a, parse s p = .ok a) ↔ ∃ bytes, T.denote s = some bytes) ∧
    ∀ a, parse s p = .ok a → a.port e = p ∧ T.denote s = some (a.address F)

theorem fromIp_acceptsWhole_iff {e : Endian} {F : Family} (hF : F = afInet ∨ F = afInet6)
    (T : TextForm F.size) (s : List UInt8) (p : UInt16) :
    AcceptsWhole e F T (fromIp e F T) s p ↔ (0 ∈ s → T.denote (cString s) = none) := by
  constructor
  · rintro ⟨hiff, -⟩ hnul
    by_contra hne
    obtain ⟨bytes, hbytes⟩ := Option.ne_none_iff_exists'.mp hne
    obtain ⟨whole, hwhole⟩ := hiff.mp ⟨_, fromIp_eq_ok.mpr ⟨bytes, hbytes, rfl⟩⟩
    exact T.no_nul s whole hwhole hnul
  · intro hcut
    have hdenote : T.denote (cString s) = T.denote s := by
      by_cases hnul : 0 ∈ s
      · rw [hcut hnul]
        cases hs : T.denote s with
        | none => rfl
        | some bytes => exact absurd hnul (T.no_nul s bytes hs)
      · rw [cString_of_no_nul hnul]
    simp only [AcceptsWhole, fromIp_eq_ok, hdenote]
    refine ⟨⟨fun ⟨_, bytes, hs, _⟩ => ⟨bytes, hs⟩, fun ⟨bytes, hs⟩ => ⟨_, bytes, hs, rfl⟩⟩, ?_⟩
    rintro a ⟨bytes, hs, rfl⟩
    exact ⟨port_fill hF, by rw [address_fill (T.length_eq s bytes hs), hs]⟩

/-- A view is taken for an address by its bytes up to the first NUL. -/
theorem address_parsing_whole_iff (e : Endian) (T4 : TextForm 4) (T6 : TextForm 16)
    (s : List UInt8) (p : UInt16) :
    (AcceptsWhole e afInet T4 (fromIpv4 e T4) s p ↔ (0 ∈ s → T4.denote (cString s) = none)) ∧
    (AcceptsWhole e afInet6 T6 (fromIpv6 e T6) s p ↔ (0 ∈ s → T6.denote (cString s) = none)) :=
  ⟨fromIp_acceptsWhole_iff (Or.inl rfl) T4 s p, fromIp_acceptsWhole_iff (Or.inr rfl) T6 s p⟩

def loopbackText : List UInt8 := [49, 50, 55, 46, 48, 46, 48, 46, 49]

/-- The text `::ffff:1.2.3.4`. -/
def mappedText : List UInt8 := [58, 58, 102, 102, 102, 102, 58, 49, 46, 50, 46, 51, 46, 52]

theorem address_parsing_whole_iff_on_texts :
    AcceptsWhole .little afInet dottedQuad (fromIpv4 .little dottedQuad) loopbackText 80 ∧
    fromIpv4 .little dottedQuad loopbackText 80 = .ok (loopback .little 80) ∧
    AcceptsWhole .big afInet6 hexGroups (fromIpv6 .big hexGroups) mappedText 443 ∧
    fromIpv6 .big hexGroups mappedText 443 =
      .ok (fill .big afInet6 443 [0, 0, 0, 0, 0, 0, 0, 0, 0, 0, 255, 255, 1, 2, 3, 4]) :=
  ⟨(address_parsing_whole_iff .little dottedQuad hexGroups loopbackText 80).1.mpr
      (fun h => absurd h (by decide)), fromIp_eq_ok.mpr ⟨_, rfl, rfl⟩,
    (address_parsing_whole_iff .big dottedQuad hexGroups mappedText 443).2.mpr
      (fun h => absurd h (by decide)), fromIp_eq_ok.mpr ⟨_, rfl, rfl⟩⟩

example (e : Endian) (p : UInt16) :
    fromIpv4 e dottedQuad [48, 46, 48, 46, 48, 46, 48] p = .ok (any e p) :=
  fromIp_eq_ok.mpr ⟨_, rfl, rfl⟩

end SocketAddress

def textBehindNul : List UInt8 := [49, 46, 50, 46, 51, 46, 52, 0, 120, 121, 122]

theorem text_behind_nul_accepted : ∃ a,
    SocketAddress.fromIpv4 .little dottedQuad textBehindNul 80 = .ok a ∧
    a.address afInet = [1, 2, 3, 4] ∧ a.port .little = 80 ∧
    dottedQuad.denote textBehindNul = none :=
  ⟨_, rfl, by decide, by decide, rfl⟩

end RainRuntime.Addresses
