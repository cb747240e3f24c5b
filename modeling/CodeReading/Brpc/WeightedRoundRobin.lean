import Mathlib.NumberTheory.LucasPrimality
import Mathlib.Tactic.NormNum.Prime
import Mathlib.Tactic.ReduceModChar
import Mathlib.Data.List.Perm.Subperm

/-!
# Weighted round robin

The servers lie on a circle, each over as many places as its weight, and a thread walks the circle
by a stride that has no factor in common with the length of it. A call takes the server of the last
place it passes, and the thread keeps what is left of the server it stands in. Over as many calls
as the circle has places, the last places are all places.

`Add` and `Remove`, which edit the list, and the choice of the foreground list are left out; the
list is one that they can leave: its ids are different, and a weight is a positive `uint32_t`.
-/

namespace CodeReading.Brpc.WeightedRoundRobin

open List Nat
open Option (bind_some map_some)

def primeStride : List Nat := [
  2, 3, 5, 11, 17, 29, 47, 71, 107, 137, 163, 251, 307, 379, 569, 683, 857, 1289, 1543, 1949, 2617,
  2927, 3407, 4391, 6599, 9901, 14867, 22303, 33457, 50207, 75323, 112997, 169501, 254257,
  381389, 572087, 849083, 1273637, 1910471, 2865727, 4298629, 6447943, 9671923, 14507903,
  21761863, 32642861, 48964297, 73446469, 110169743, 165254623, 247881989, 371822987,
  557734537, 836601847, 1254902827, 1882354259, 2823531397, 4235297173, 6352945771,
  9529418671]

/-- The loop of `IsCoprime`; absent on a division by zero. -/
def euclid : Nat → Nat → Nat → Option Nat
  | 0, _, _ => none
  | fuel + 1, num1, num2 =>
      if num2 = 0 then none
      else if num1 % num2 = 0 then some num2 else euclid fuel num2 (num1 % num2)

def isCoprime (num1 num2 : Nat) : Bool :=
  let large := if num1 < num2 then num2 else num1
  let small := if num1 < num2 then num1 else num2
  euclid (small + 1) large small = some 1

/-- `GetStride`; absent where its `CHECK` fails. -/
def getStride (weightSum num : Nat) : Option Nat :=
  if weightSum = 1 then some 1
  else
    let averageWeight := weightSum / num % 2 ^ 32
    ((primeStride.dropWhile (· < averageWeight)).find? (isCoprime weightSum)).map fun prime =>
      if prime > weightSum then prime % weightSum else prime

structure Server where
  id : Nat
  weight : Nat
deriving DecidableEq

structure TLS where
  position : Nat := 0
  stride : Nat := 0
  remainServer : Server := ⟨0, 0⟩
  weightSum : Nat := 0
  serversNum : Nat := 0
deriving DecidableEq

/-- The loop of `GetServerInNextStride`: the server, the position and what remains. -/
def walk (servers : List Server) (filter : List Nat) :
    Nat → Nat → Nat → Nat → Server → Option (Nat × Nat × Server)
  | 0, _, _, _, _ => none
  | fuel + 1, stride, position, finalServer, remain =>
      if stride = 0 then some (finalServer, position, remain)
      else (servers[position]?).bind fun server =>
        if server.id ∈ filter then
          walk servers filter fuel stride ((position + 1) % servers.length) server.id remain
        else if server.weight > stride then
          some (server.id, position, ⟨server.id, server.weight - stride⟩)
        else walk servers filter fuel (stride - server.weight) ((position + 1) % servers.length)
          server.id remain

/-- `GetServerInNextStride`. In as many rounds as the stride the loop ends, if a server is not
filtered. -/
def getServerInNextStride (servers : List Server) (filter : List Nat) (tls : TLS) :
    Option (Nat × TLS) :=
  let remain := tls.remainServer
  let fuel := (tls.stride + 1) * servers.length + 1
  let next := (tls.position + 1) % servers.length
  let landed :=
    if 0 < remain.weight then
      if remain.id ∉ filter then
        if remain.weight > tls.stride then
          some (remain.id, tls.position, ⟨remain.id, remain.weight - tls.stride⟩)
        else walk servers filter fuel (tls.stride - remain.weight) next remain.id ⟨remain.id, 0⟩
      else walk servers filter fuel tls.stride next 0 ⟨remain.id, 0⟩
    else walk servers filter fuel tls.stride tls.position 0 remain
  landed.map fun (server, position, remainServer) => (server, { tls with position, remainServer })

/-- The loop of `SelectServer` over the servers that may still be chosen. -/
def trySelect (servers : List Server) (usable : Nat → Bool) (tls : TLS) :
    Nat → List Nat → Nat → TLS → Option (Option Nat × TLS)
  | 0, _, _, _ => some (none, tls)
  | remainServers + 1, filter, remainWeight, temp =>
      (getServerInNextStride servers filter temp).bind fun (id, after) =>
        if usable id then
          some (some id,
            { tls with remainServer := after.remainServer, position := after.position })
        else if remainServers = 0 then some (none, tls)
        else (servers.find? (·.id = id)).bind fun server =>
          (getStride (remainWeight - server.weight) remainServers).bind fun stride =>
            trySelect servers usable tls remainServers (id :: filter)
              (remainWeight - server.weight) { tls with stride }

/-- `weight_sum` of a list, a `uint64_t`. -/
def weightSum (servers : List Server) : Nat := (servers.map Server.weight).sum % 2 ^ 64

/-- The head of `SelectServer`: a new stride if the list changed, a first position at random, the
position in range, and nothing left of a server that is not there any more. -/
def prepare (servers : List Server) (random : Nat) (tls : TLS) : Option TLS :=
  let changed := weightSum servers ≠ tls.weightSum ∨ servers.length ≠ tls.serversNum
  let start := if changed ∧ tls.stride = 0 then random else tls.position
  (if changed then getStride (weightSum servers) servers.length else some tls.stride).bind
    fun stride =>
      (servers[start % servers.length]?).map fun server =>
        { position := start % servers.length, stride
          remainServer :=
            if tls.remainServer.id ≠ server.id then ⟨tls.remainServer.id, 0⟩ else tls.remainServer
          weightSum := weightSum servers, serversNum := servers.length }

/-- `SelectServer` on a list that is not empty: the server chosen, or none on `EHOSTDOWN`. -/
def selectServer (servers : List Server) (usable : Nat → Bool) (random : Nat) (tls : TLS) :
    Option (Option Nat × TLS) :=
  (prepare servers random tls).bind fun tls =>
    trySelect servers usable tls servers.length [] (weightSum servers) tls

def selectServers (servers : List Server) (usable : Nat → Bool) (random : Nat) :
    Nat → TLS → Option (List (Option Nat) × TLS)
  | 0, tls => some ([], tls)
  | calls + 1, tls =>
      (selectServer servers usable random tls).bind fun (picked, after) =>
        (selectServers servers usable random calls after).map fun (rest, final) =>
          (picked :: rest, final)

/-! ## The stride -/

theorem euclid_gcd (fuel : Nat) (positive : 0 < num2) (enough : num2 < fuel) :
    euclid fuel num1 num2 = some (num1.gcd num2) := by
  induction fuel generalizing num1 num2 with
  | zero => omega
  | succ fuel ih =>
    rw [euclid, if_neg (ne_of_gt positive)]
    split
    · next divides => rw [gcd_eq_right (dvd_of_mod_eq_zero divides)]
    · next remains =>
      have smaller := mod_lt num1 positive
      rw [ih (by omega) (by omega), Nat.gcd_comm num2, ← Nat.gcd_rec, gcd_comm]

theorem isCoprime_iff (first : 0 < num1) (second : 0 < num2) :
    isCoprime num1 num2 = true ↔ num1.Coprime num2 := by
  rw [isCoprime, decide_eq_true_iff]
  split
  · rw [euclid_gcd _ first (lt_succ_self _), Option.some.injEq, coprime_comm, coprime_iff_gcd_eq_one]
  · rw [euclid_gcd _ second (lt_succ_self _), Option.some.injEq, coprime_iff_gcd_eq_one]

theorem prime_of_root (root : ZMod p) (factors : List Nat) (whole : factors.prod = p - 1)
    (primes : ∀ q ∈ factors, q.Prime) (isRoot : root ^ (p - 1) = 1)
    (others : ∀ q ∈ factors, root ^ ((p - 1) / q) ≠ 1) : p.Prime := by
  refine lucas_primality p root isRoot fun q isPrime divides => ?_
  rw [← whole] at divides
  obtain ⟨r, mem, dvd⟩ := (Prime.dvd_prod_iff isPrime.prime).mp divides
  rw [(prime_dvd_prime_iff_eq isPrime (primes r mem)).mp dvd]
  exact others r mem

theorem prime_penultimate : Nat.Prime 6352945771 := by
  refine prime_of_root 2 [2, 3, 5, 4519, 46861] rfl ?_ ?_ ?_
  · simp only [forall_mem_cons]; norm_num
  · norm_num; reduce_mod_char
  · simp only [forall_mem_cons]; norm_num; reduce_mod_char; decide

theorem prime_last : Nat.Prime 9529418671 := by
  refine prime_of_root 3 [2, 3, 5, 149, 953, 2237] rfl ?_ ?_ ?_
  · simp only [forall_mem_cons]; norm_num
  · norm_num; reduce_mod_char
  · simp only [forall_mem_cons]; norm_num; reduce_mod_char; decide

/-- A number below the product of two primes is a multiple of at most one of them. -/
theorem coprime_exists {p q sum : Nat} (first : p.Prime) (second : q.Prime) (distinct : p ≠ q)
    (positive : 0 < sum) (small : sum < p * q) : sum.Coprime p ∨ sum.Coprime q := by
  by_contra neither
  obtain ⟨notFirst, notSecond⟩ := not_or.mp neither
  rw [coprime_comm, first.coprime_iff_not_dvd, not_not] at notFirst
  rw [coprime_comm, second.coprime_iff_not_dvd, not_not] at notSecond
  have coprime := (coprime_primes first second).mpr distinct
  have both := le_of_dvd positive (coprime.mul_dvd_of_dvd_of_dvd notFirst notSecond)
  omega

/-- The last two primes are above every average of weights. -/
theorem primeStride_above (small : average < 2 ^ 32) (large : prime ∈ [6352945771, 9529418671]) :
    prime ∈ primeStride.dropWhile (· < average) := by
  have isSplit : primeStride = primeStride.take 58 ++ [6352945771, 9529418671] := by decide
  rw [isSplit, dropWhile_append]
  split
  · rw [dropWhile_cons_of_neg (by simp; omega)]
    exact large
  · exact mem_append_right _ large

theorem getStride_finds {sum num : Nat} (positive : 0 < sum) (small : sum < 2 ^ 64)
    (average : sum / num < 2 ^ 32) :
    ∃ stride, getStride sum num = some stride ∧ 0 < stride ∧ stride ≤ sum ∧ stride.Coprime sum := by
  by_cases single : sum = 1
  · exact ⟨1, by rw [getStride, if_pos single], one_pos, positive, coprime_one_left _⟩
  · have primesPos : ∀ prime ∈ primeStride, 0 < prime := by decide
    have found : ((primeStride.dropWhile (· < sum / num % 2 ^ 32)).find?
        (isCoprime sum)).isSome := by
      rw [mod_eq_of_lt average, find?_isSome]
      rcases coprime_exists prime_penultimate prime_last (by decide) positive
        (small.trans (by norm_num)) with isCoprime | isCoprime
      all_goals
        exact ⟨_, primeStride_above average (by simp),
          (isCoprime_iff positive (by omega)).mpr isCoprime⟩
    obtain ⟨prime, isFound⟩ := Option.isSome_iff_exists.mp found
    have primePos := primesPos _
      ((dropWhile_suffix _).subset (mem_of_find?_eq_some isFound))
    have coprime := ((isCoprime_iff positive primePos).mp (find?_some isFound)).symm
    have isStride : getStride sum num = some (if prime > sum then prime % sum else prime) := by
      simp only [getStride, if_neg single, isFound, map_some]
    refine ⟨_, isStride, ?_⟩
    split
    · have reduced : (prime % sum).Coprime sum := by
        rwa [coprime_iff_gcd_eq_one, ← gcd_rec, gcd_comm]
      refine ⟨pos_of_ne_zero fun zero => ?_, le_of_lt (mod_lt _ positive), reduced⟩
      rw [zero, coprime_zero_left] at reduced
      exact single reduced
    · exact ⟨primePos, by omega, coprime⟩

/-! ## The circle -/

section

variable (servers : List Server)

/-- The servers by places. -/
def circle : List Nat :=
  servers.flatMap fun server => List.replicate server.weight server.id

def total : Nat := (servers.map Server.weight).sum

def placesBefore (position : Nat) : Nat := total (servers.take position)

/-- The server of the last place before a place, counted on round the circle. -/
def owner (place : Nat) : Nat :=
  (circle servers).getD ((place + (total servers - 1)) % total servers) 0

end

variable {servers : List Server} {server : Server} {position : Nat}

theorem circle_length : (circle servers).length = total servers := by
  simp [circle, total, length_flatMap]

theorem placesBefore_succ (isServer : servers[position]? = some server) :
    placesBefore servers (position + 1) = placesBefore servers position + server.weight := by
  rw [placesBefore, placesBefore, take_add_one, isServer]
  simp [total]

theorem placesBefore_le (servers : List Server) (position : Nat) :
    placesBefore servers position ≤ total servers :=
  ((take_sublist position servers).map Server.weight).sum_le_sum (by simp)

variable {place : Nat}

theorem circle_getD (isServer : servers[position]? = some server) (inside : place < server.weight) :
    (circle servers).getD (placesBefore servers position + place) 0 = server.id := by
  obtain ⟨within, rfl⟩ := List.getElem?_eq_some_iff.mp isServer
  have isSplit : circle servers = circle (servers.take position) ++
      (replicate servers[position].weight servers[position].id ++
        circle (servers.drop (position + 1))) := by
    conv_lhs => rw [circle, ← take_append_drop position servers,
      drop_eq_getElem_cons within, flatMap_append, flatMap_cons]
    rfl
  rw [isSplit, placesBefore, ← circle_length, getD_eq_getElem?_getD,
    getElem?_append_right (by omega), Nat.add_sub_cancel_left,
    getElem?_append_left (by simpa using inside)]
  simp [inside]

theorem owner_congr (same : left ≡ right [MOD total servers]) :
    owner servers left = owner servers right := by
  rw [owner, owner, same.add_right (total servers - 1)]

variable {stride : Nat}

/-- The last place of a stretch that ends in a server. -/
theorem owner_last (isServer : servers[position]? = some server) (moving : 0 < stride)
    (inside : stride ≤ server.weight) :
    owner servers (placesBefore servers position + stride) = server.id := by
  have within := placesBefore_le servers (position + 1)
  rw [placesBefore_succ isServer] at within
  have isPlace : placesBefore servers position + stride + (total servers - 1) =
      placesBefore servers position + (stride - 1) + total servers := by omega
  rw [owner, isPlace, add_mod_right, mod_eq_of_lt (by omega)]
  exact circle_getD isServer (by omega)

/-- A step to the next position is a step over the places of the server. -/
theorem placesBefore_next (isServer : servers[position]? = some server) :
    placesBefore servers ((position + 1) % servers.length) ≡
      placesBefore servers position + server.weight [MOD total servers] := by
  have inside := (List.getElem?_eq_some_iff.mp isServer).1
  rw [← placesBefore_succ isServer]
  by_cases last : position + 1 = servers.length
  · rw [last, mod_self, placesBefore, placesBefore, take_length, take_zero]
    exact (modEq_zero_iff_dvd.mpr (dvd_refl _)).symm
  · rw [mod_eq_of_lt (by omega)]

/-- Where a thread stands on the circle: past some places of a server, or before all of them. -/
structure Stands (servers : List Server) (position : Nat) (remain : Server) (place : Nat) :
    Prop where
  inside : position < servers.length
  stands : ∃ passed, placesBefore servers position + passed ≡ place [MOD total servers] ∧
    ((remain.weight = 0 ∧ passed = 0) ∨ (passed < servers[position].weight ∧
      remain = ⟨servers[position].id, servers[position].weight - passed⟩))

theorem Stands.congr (stands : Stands servers position remain place)
    (same : place ≡ other [MOD total servers]) : Stands servers position remain other := by
  obtain ⟨passed, isPlace, remains⟩ := stands.stands
  exact ⟨stands.inside, passed, isPlace.trans same, remains⟩

/-- The loop ends at the place the stride leads to, with the server of the place before it. -/
theorem walk_lands (positive : ∀ server ∈ servers, 0 < server.weight) (fuel : Nat)
    (finalServer : Nat) (remain : Server) (enough : stride < fuel)
    (inside : position < servers.length) (nothing : remain.weight = 0)
    (arrived : stride = 0 → finalServer = owner servers (placesBefore servers position)) :
    ∃ after left, walk servers [] fuel stride position finalServer remain =
        some (owner servers (placesBefore servers position + stride), after, left) ∧
      Stands servers after left (placesBefore servers position + stride) := by
  induction fuel generalizing stride position finalServer with
  | zero => omega
  | succ fuel ih =>
    rw [walk]
    split
    · next zero =>
      exact ⟨position, remain, by rw [arrived zero, zero, add_zero],
        inside, 0, by rw [zero], .inl ⟨nothing, rfl⟩⟩
    · next moving =>
      have isServer := getElem?_eq_getElem inside
      have weight := positive _ (getElem_mem inside)
      rw [isServer, bind_some, if_neg not_mem_nil]
      split
      · next larger =>
        exact ⟨position, ⟨servers[position].id, servers[position].weight - stride⟩,
          by rw [owner_last isServer (by omega) (by omega)], inside, stride, rfl,
          .inr ⟨larger, rfl⟩⟩
      · next smaller =>
        have step := placesBefore_next isServer
        have arrives : stride - servers[position].weight = 0 → servers[position].id =
            owner servers (placesBefore servers ((position + 1) % servers.length)) := fun _ => by
          rw [owner_congr step, owner_last isServer weight (le_refl _)]
        obtain ⟨after, left, isWalk, stands⟩ := ih _ (by omega) (mod_lt _ (by omega)) arrives
        have same := step.add_right (stride - servers[position].weight)
        rw [Nat.add_assoc, Nat.add_sub_cancel' (by omega)] at same
        exact ⟨after, left, by rw [isWalk, owner_congr same], stands.congr same⟩

variable {tls : TLS}

theorem getServerInNextStride_lands (positive : ∀ server ∈ servers, 0 < server.weight)
    (stands : Stands servers tls.position tls.remainServer place) (moving : 0 < tls.stride) :
    ∃ after left, getServerInNextStride servers [] tls =
        some (owner servers (place + tls.stride),
          { tls with position := after, remainServer := left }) ∧
      Stands servers after left (place + tls.stride) := by
  have inside := stands.inside
  have enough : tls.stride < (tls.stride + 1) * servers.length + 1 := by
    have := Nat.le_mul_of_pos_right (tls.stride + 1) (Nat.zero_lt_of_lt inside)
    omega
  rw [getServerInNextStride]
  have isServer := getElem?_eq_getElem inside
  obtain ⟨passed, isPlace, ⟨isZero, rfl⟩ | ⟨within, isRemain⟩⟩ := stands.stands
  · rw [add_zero] at isPlace
    have same := isPlace.add_right tls.stride
    obtain ⟨after, left, isWalk, lands⟩ := walk_lands positive _ 0 _ enough inside isZero
      (fun zero => absurd zero (by omega))
    refine ⟨after, left, ?_, lands.congr same⟩
    simp [isZero, isWalk, owner_congr same]
  · have same := isPlace.add_right tls.stride
    rw [add_assoc] at same
    simp only [isRemain, if_pos (Nat.sub_pos_of_lt within), if_pos not_mem_nil]
    split
    · next larger =>
      refine ⟨tls.position, _, ?_, inside, passed + tls.stride, same, .inr ⟨by omega, rfl⟩⟩
      rw [← owner_congr same, owner_last isServer (by omega) (by omega), map_some, Nat.sub_sub]
    · next smaller =>
      have step := placesBefore_next isServer
      have onward := step.add_right (tls.stride - (servers[tls.position].weight - passed))
      rw [add_assoc, show servers[tls.position].weight +
        (tls.stride - (servers[tls.position].weight - passed)) = passed + tls.stride by omega]
        at onward
      obtain ⟨after, left, isWalk, lands⟩ := walk_lands positive
        ((tls.stride + 1) * servers.length + 1) servers[tls.position].id
        ⟨servers[tls.position].id, 0⟩ (lt_of_le_of_lt (sub_le _ _) enough)
        (mod_lt _ (zero_lt_of_lt inside)) rfl fun _ => by
          rw [owner_congr step, owner_last isServer (by omega) (le_refl _)]
      have arrives := onward.trans same
      exact ⟨after, left, by rw [isWalk, map_some, owner_congr arrives],
        lands.congr arrives⟩

/-! ## The calls of a thread -/

/-- `SelectServer` leaves a thread with the stride of the list it saw, and has not touched a thread
without a stride. -/
def Kept (tls : TLS) : Prop :=
  (tls.weightSum = 0 ∧ tls.stride = 0 ∧ tls.remainServer.weight = 0) ∨
    (0 < tls.stride ∧ getStride tls.weightSum tls.serversNum = some tls.stride)

/-- A server that is not excluded, whose socket has the version of the id and is available. -/
def usable (excluded : List Nat) (versions : Nat → Nat) (available : Nat → Bool) (id : Nat) :
    Bool :=
  !excluded.contains id && (versions (id % 2 ^ 32) == id / 2 ^ 32 && available id)

/-- What `Add` leaves in a list. -/
structure Listed (servers : List Server) : Prop where
  nonempty : servers ≠ []
  distinct : (servers.map Server.id).Nodup
  positive : ∀ server ∈ servers, 0 < server.weight
  bounded : ∀ server ∈ servers, server.weight < 2 ^ 32

theorem total_le (bounded : ∀ server ∈ servers, server.weight < 2 ^ 32) :
    total servers ≤ servers.length * (2 ^ 32 - 1) := by
  have each := sum_le_card_nsmul (servers.map Server.weight) (2 ^ 32 - 1) (by
    intro weight mem
    obtain ⟨server, isServer, rfl⟩ := mem_map.mp mem
    exact le_pred_of_lt (bounded server isServer))
  simpa [total] using each

theorem Listed.total_pos (listed : Listed servers) : 0 < total servers := by
  obtain ⟨server, mem⟩ := exists_mem_of_ne_nil _ listed.nonempty
  exact lt_of_lt_of_le (listed.positive server mem)
    (single_le_sum (by simp) _ (mem_map_of_mem mem))

variable {use : Nat → Bool}

/-- Servers with sockets have different slots, of which there are `2 ^ 32`. -/
theorem length_le_slots {versions : Nat → Nat} (distinct : (servers.map Server.id).Nodup)
    (addressed : ∀ id, use id = true → versions (id % 2 ^ 32) = id / 2 ^ 32)
    (all : ∀ server ∈ servers, use server.id = true) : servers.length ≤ 2 ^ 32 := by
  have slots : ((servers.map Server.id).map (· % 2 ^ 32)).Nodup := by
    refine distinct.map_on fun _ isLeft _ isRight same => ?_
    obtain ⟨first, isFirst, rfl⟩ := mem_map.mp isLeft
    obtain ⟨second, isSecond, rfl⟩ := mem_map.mp isRight
    have versionFirst := addressed _ (all first isFirst)
    have versionSecond := addressed _ (all second isSecond)
    rw [same, versionSecond] at versionFirst
    omega
  have below : ((servers.map Server.id).map (· % 2 ^ 32)) ⊆ range (2 ^ 32) := by
    intro slot mem
    obtain ⟨id, -, rfl⟩ := mem_map.mp mem
    exact mem_range.mpr (mod_lt _ (by norm_num))
  simpa using (slots.subperm below).length_le

theorem owner_mem (positive : 0 < total servers) (place : Nat) :
    ∃ server ∈ servers, server.id = owner servers place := by
  have inside : (place + (total servers - 1)) % total servers < (circle servers).length := by
    rw [circle_length]
    exact mod_lt _ positive
  obtain ⟨server, isServer, isId⟩ := mem_flatMap.mp (getElem_mem inside)
  refine ⟨server, isServer, (eq_of_mem_replicate isId).symm.trans ?_⟩
  rw [owner, getD_eq_getElem?_getD, getElem?_eq_getElem inside, Option.getD_some]

/-- A thread that has seen the list stands on its circle with a stride. -/
structure Ready (servers : List Server) (stride : Nat) (tls : TLS) (place : Nat) : Prop where
  isSum : tls.weightSum = weightSum servers
  isNum : tls.serversNum = servers.length
  isStride : tls.stride = stride
  stands : Stands servers tls.position tls.remainServer place

theorem prepare_ready (ready : Ready servers stride tls place) (random : Nat) :
    prepare servers random tls = some tls := by
  obtain ⟨position, stride, ⟨id, weight⟩, sum, num⟩ := tls
  obtain ⟨rfl, rfl, rfl, inside, _, -, remains⟩ := ready
  simp only [prepare, ne_eq, not_true_eq_false, or_self, if_false, false_and, bind_some,
    mod_eq_of_lt inside, getElem?_eq_getElem inside, map_some]
  rcases remains with ⟨rfl, -⟩ | ⟨-, isRemain⟩
  · simp
  · have isId : id = servers[position].id := (Server.mk.inj isRemain).1
    simp [isId]

theorem prepare_prepares (listed : Listed servers) (small : total servers < 2 ^ 64)
    (kept : Kept tls) (random : Nat)
    (isStride : getStride (total servers) servers.length = some stride)
    (remains : ∀ server, servers[tls.position % servers.length]? = some server →
      tls.remainServer.weight ≤ server.weight) :
    ∃ ready place, prepare servers random tls = some ready ∧ Ready servers stride ready place := by
  have isSum : weightSum servers = total servers := mod_eq_of_lt small
  have positive := listed.total_pos
  have nonempty := length_pos_of_ne_nil listed.nonempty
  simp only [prepare, isSum]
  generalize isStart : (if (total servers ≠ tls.weightSum ∨ servers.length ≠ tls.serversNum) ∧
    tls.stride = 0 then random else tls.position) = start
  have inside := mod_lt start nonempty
  have strides : (if total servers ≠ tls.weightSum ∨ servers.length ≠ tls.serversNum then
      getStride (total servers) servers.length else some tls.stride) = some stride := by
    split
    · exact isStride
    · next same =>
      obtain ⟨sameSum, sameNum⟩ := not_or.mp same
      rcases kept with ⟨_, -⟩ | ⟨-, isKept⟩
      · omega
      · rw [← isStride, not_not.mp sameSum, not_not.mp sameNum, isKept]
  have fits : tls.remainServer.weight ≤ servers[start % servers.length].weight := by
    rcases kept with ⟨-, -, isZero⟩ | ⟨_, -⟩
    · omega
    · rw [if_neg (by omega)] at isStart
      subst isStart
      exact remains _ (getElem?_eq_getElem inside)
  have isServer := getElem?_eq_getElem inside
  simp only [strides, isServer, bind_some, map_some]
  refine ⟨_, _, rfl, isSum.symm, rfl, rfl, inside,
    if tls.remainServer.weight = 0 ∨ tls.remainServer.id ≠ servers[start % servers.length].id then 0
      else servers[start % servers.length].weight - tls.remainServer.weight, rfl, ?_⟩
  dsimp only
  by_cases other : tls.remainServer.id ≠ servers[start % servers.length].id
  · exact .inl ⟨by rw [if_pos other], if_pos (.inr other)⟩
  · rw [if_neg other]
    rcases Nat.eq_zero_or_pos tls.remainServer.weight with isZero | some
    · exact .inl ⟨isZero, if_pos (.inl isZero)⟩
    · rw [if_neg (by omega), Nat.sub_sub_self fits, ← not_not.mp other]
      exact .inr ⟨by omega, rfl⟩

section

variable (listed : Listed servers) (all : ∀ server ∈ servers, use server.id = true)
include listed all

theorem selectServer_lands (ready : Ready servers stride tls place) (moving : 0 < stride)
    (random : Nat) : ∃ after, selectServer servers use random tls =
        some (some (owner servers (place + stride)), after) ∧
      Ready servers stride after (place + stride) := by
  obtain ⟨isSum, isNum, rfl, stands⟩ := ready
  obtain ⟨after, left, isNext, lands⟩ := getServerInNextStride_lands listed.positive stands moving
  obtain ⟨server, mem, isOwner⟩ := owner_mem listed.total_pos (place + tls.stride)
  refine ⟨{ tls with position := after, remainServer := left }, ?_, isSum, isNum, rfl, lands⟩
  obtain ⟨_, _, rfl⟩ := exists_cons_of_ne_nil listed.nonempty
  rw [selectServer, prepare_ready ⟨isSum, isNum, rfl, stands⟩, bind_some, length_cons,
    trySelect, isNext, bind_some]
  dsimp only
  rw [if_pos (isOwner ▸ all server mem)]

theorem selectServers_lands (moving : 0 < stride) (random calls : Nat)
    (ready : Ready servers stride tls place) : ∃ final, selectServers servers use random calls tls =
        some ((range calls).map fun call =>
          some (owner servers (place + (call + 1) * stride)), final) ∧
      Ready servers stride final (place + calls * stride) := by
  induction calls generalizing place tls with
  | zero => exact ⟨tls, rfl, by simpa using ready⟩
  | succ calls ih =>
    obtain ⟨_, isFirst, next⟩ := selectServer_lands listed all ready moving random
    obtain ⟨final, isRest, stands⟩ := ih next
    refine ⟨final, ?_, by rwa [show place + stride + calls * stride = place + (calls + 1) * stride
      by ring] at stands⟩
    rw [selectServers, isFirst, bind_some]
    dsimp only
    rw [isRest, map_some, range_succ_eq_map, map_cons, map_map, zero_add, one_mul]
    refine congrArg (fun rest => some (_ :: rest, final)) (map_congr_left fun call _ => ?_)
    rw [Function.comp_apply, show place + stride + (call + 1) * stride =
      place + (call.succ + 1) * stride by rw [succ_eq_add_one]; ring]

end

/-- A stride coprime with the circle meets every place once. -/
theorem strides_perm {count : Nat} (coprime : stride.Coprime count) (positive : 0 < count)
    (place : Nat) : ((range count).map fun call => (place + call * stride) % count).Perm
      (range count) := by
  have nodup : ((range count).map fun call => (place + call * stride) % count).Nodup := by
    refine nodup_range.map_on fun _ isLeft _ isRight same => ?_
    have cancelled := Nat.ModEq.cancel_right_of_coprime coprime.symm
      (Nat.ModEq.add_left_cancel' place same)
    exact cancelled.eq_of_lt_of_lt (mem_range.mp isLeft) (mem_range.mp isRight)
  refine (nodup.subperm fun place mem => ?_).perm_of_length_le (by simp)
  obtain ⟨call, -, rfl⟩ := mem_map.mp mem
  exact mem_range.mpr (mod_lt _ positive)

theorem circle_count (distinct : (servers.map Server.id).Nodup) (mem : server ∈ servers) :
    (circle servers).count server.id = server.weight := by
  induction servers with
  | nil => exact absurd mem not_mem_nil
  | cons head rest ih =>
    obtain ⟨absent, later⟩ := nodup_cons.mp distinct
    rw [circle, flatMap_cons, count_append, ← circle, count_replicate]
    rcases mem_cons.mp mem with rfl | inRest
    · have noneLeft : (circle rest).count server.id = 0 := by
        refine count_eq_zero.mpr fun isThere => ?_
        obtain ⟨other, isOther, isId⟩ := mem_flatMap.mp isThere
        exact absent (mem_map.mpr ⟨other, isOther, (eq_of_mem_replicate isId).symm⟩)
      simp [noneLeft]
    · have notHead : head.id ≠ server.id := fun same => absent (same ▸ mem_map_of_mem inRest)
      simp [notHead, ih later inRest]

theorem strides_fair (distinct : (servers.map Server.id).Nodup) (positive : 0 < total servers)
    (coprime : stride.Coprime (total servers)) (place : Nat) (mem : server ∈ servers) :
    ((range (total servers)).map fun call =>
      some (owner servers (place + (call + 1) * stride))).count (some server.id) =
      server.weight := by
  have places : (range (total servers)).map (fun call =>
        some (owner servers (place + (call + 1) * stride))) =
      ((range (total servers)).map fun call =>
        (place + stride + (total servers - 1) + call * stride) % total servers).map
          fun place => some ((circle servers).getD place 0) := by
    rw [map_map]
    refine map_congr_left fun call _ => ?_
    rw [Function.comp_apply, owner, show place + (call + 1) * stride + (total servers - 1) =
      place + stride + (total servers - 1) + call * stride by ring]
  have whole : (range (total servers)).map
      (fun place => some ((circle servers).getD place 0)) = (circle servers).map some := by
    refine ext_getElem (by simp [circle_length]) fun place _ inside => ?_
    rw [length_map] at inside
    simp [getD_eq_getElem?_getD, getElem?_eq_getElem inside]
  rw [places, ((strides_perm coprime positive _).map _).count_eq, whole,
    count_map_of_injective _ _ (Option.some_injective _), circle_count distinct mem]

/-- Over as many calls as the weights add up to, each server is chosen as often as its weight. The
stride the calls go by was found, is between `1` and that sum, and coprime with it. -/
theorem selectServers_fair (listed : Listed servers) (excluded : List Nat) (versions : Nat → Nat)
    (available : Nat → Bool)
    (all : ∀ server ∈ servers, usable excluded versions available server.id = true)
    (random : Nat) (tls : TLS) (kept : Kept tls)
    (remains : ∀ server, servers[tls.position % servers.length]? = some server →
      tls.remainServer.weight ≤ server.weight) :
    (∃ picked final, selectServers servers (usable excluded versions available) random
        (total servers) tls = some (picked, final) ∧ Kept final ∧
      ∀ server ∈ servers, picked.count (some server.id) = server.weight) ∧
    ∃ stride, getStride (weightSum servers) servers.length = some stride ∧ 1 ≤ stride ∧
      stride ≤ total servers ∧ stride.Coprime (total servers) := by
  have positive := listed.total_pos
  have nonempty := length_pos_of_ne_nil listed.nonempty
  have most := total_le listed.bounded
  have slots := length_le_slots listed.distinct
    (fun id isUsable => by simp [usable] at isUsable; exact isUsable.2.1) all
  have small : total servers < 2 ^ 64 := by
    have := mul_le_mul_right (2 ^ 32 - 1) slots
    omega
  have isSum : weightSum servers = total servers := Nat.mod_eq_of_lt small
  have average : total servers / servers.length < 2 ^ 32 :=
    Nat.div_lt_of_lt_mul (by
      have := Nat.mul_lt_mul_of_pos_left (show 2 ^ 32 - 1 < 2 ^ 32 by norm_num) nonempty
      omega)
  obtain ⟨stride, isStride, moving, within, coprime⟩ := getStride_finds positive small average
  rw [isSum]
  refine ⟨?_, stride, isStride, moving, within, coprime⟩
  obtain ⟨ready, place, prepared, isReady⟩ :=
    prepare_prepares listed small kept random isStride remains
  obtain ⟨final, lands, isFinal⟩ :=
    selectServers_lands listed all moving random (total servers) isReady
  obtain ⟨_, isCalls⟩ := exists_eq_succ_of_ne_zero (ne_of_gt positive)
  have same : selectServers servers (usable excluded versions available) random (total servers)
      tls = selectServers servers (usable excluded versions available) random (total servers)
        ready := by
    rw [isCalls, selectServers, selectServers, selectServer, prepared, selectServer,
      prepare_ready isReady]
  refine ⟨_, final, same.trans lands, .inr ⟨?_, ?_⟩, fun server mem => ?_⟩
  · rw [isFinal.isStride]
    exact moving
  · rw [isFinal.isSum, isFinal.isNum, isFinal.isStride, isSum, isStride]
  · exact strides_fair listed.distinct positive coprime place mem

/-- Three servers, from a thread that has two places left in the second. -/
theorem selectServers_fair_three :
    ∃ picked final, selectServers [⟨1, 3⟩, ⟨2, 2⟩, ⟨3, 1⟩]
        (usable [] (fun _ => 0) fun _ => true) 0 6 ⟨1, 5, ⟨2, 2⟩, 6, 3⟩ = some (picked, final) ∧
      picked.count (some 1) = 3 := by
  obtain ⟨⟨picked, final, isPicked, -, fair⟩, -⟩ := @selectServers_fair
    [⟨1, 3⟩, ⟨2, 2⟩, ⟨3, 1⟩] ⟨by decide, by decide, by decide, by decide⟩ [] (fun _ => 0)
    (fun _ => true) (by decide) 0 ⟨1, 5, ⟨2, 2⟩, 6, 3⟩ (.inr (by decide)) (by simp)
  exact ⟨picked, final, isPicked, fair ⟨1, 3⟩ (by decide)⟩

end CodeReading.Brpc.WeightedRoundRobin
