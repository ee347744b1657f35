import Choreo.Proofs.Block.Clamped
import Choreo.Proofs.Program.Built
import Choreo.Proofs.Run.Turns

/-! # Stored values can be executed

A run computes with the values of its blocks: it counts the iterations of a repeat, and waits for
the lengths of motions and pauses. Every value that a built block stores, or that counts because
none is stored, comes through this (`Block.Valid.executable`): what is counted is the value itself,
and the lengths exist. Only the length of a turn depends on the timing as well.

A stored value is its own clamped value, so setting it again changes nothing
(`Program.Reachable.setParam_stored`). -/

namespace Choreo

namespace Settings

theorem insert_stored {s : Settings} {p : Param} {x : Float} (h : s.get? p = some x) :
    s.insert p x = s := by
  refine ext_get? fun q => ?_
  by_cases hq : q = p
  · rw [hq, get?_insert_self, h]
  · exact get?_insert_of_ne s hq x

theorem Fits.set_stored {s : Settings} {kind : Kind} (hfits : s.Fits kind) {p : Param} {x : Float}
    (h : s.get? p = some x) : s.set kind p x = .ok s := by
  obtain ⟨haccepts, hx⟩ := hfits p x h
  rw [s.set_eq haccepts hx, insert_stored h]

end Settings

/-! ### Pauses -/

theorem Param.Admits.pause {x : Float} (h : Param.seconds.Admits x) :
    1000 ≤ (x * 1000.0).toUInt64.toNat ∧ (x * 1000.0).toUInt64.toNat ≤ 10000 := by
  obtain ⟨hn, hlow, hhigh⟩ := h.bounds
  have hmilli : Double.code 1000.0 < BinaryFormat.double.infinity := by decide +kernel
  have hmin : Double.code Param.seconds.low < BinaryFormat.double.infinity := by decide +kernel
  have hmax := Param.seconds.code_high_lt
  have hx : Double.code x < BinaryFormat.double.infinity := Nat.lt_of_le_of_lt hhigh hmax
  -- the product lies between those of the bounds, and so does what is left of it
  have hge := Double.code_mul_le hmin hx hmilli hlow
  have hle := Double.code_mul_le hx hmax hmilli hhigh
  have hleast : Double.code (Param.seconds.low * 1000.0) = Double.code 1000.0 := by decide +kernel
  have hmost : Double.code (Param.seconds.high * 1000.0) = Double.code 10000.0 := by decide +kernel
  have hlast : Double.code 10000.0 < BinaryFormat.double.infinity := by decide +kernel
  rw [hleast] at hge
  rw [hmost] at hle
  have hy : Double.code (x * 1000.0) < BinaryFormat.double.infinity := Nat.lt_of_le_of_lt hle hlast
  have hsign : Double.isNegative (x * 1000.0) = false := by
    rw [(Double.code_mul hx hmilli).2, hn]
    decide +kernel
  have hfrom : ⌊Double.codeValue (Double.code 1000.0)⌋₊ = 1000 := by
    rw [Double.floor_codeValue]
    decide +kernel
  have hto : ⌊Double.codeValue (Double.code 10000.0)⌋₊ = 10000 := by
    rw [Double.floor_codeValue]
    decide +kernel
  have h1 := Double.floor_codeValue_le hmilli hy hge
  have h2 := Double.floor_codeValue_le hy hlast hle
  rw [Double.toNat_toUInt64 hy hsign (by omega)]
  omega

/-! ### Blocks -/

/-- A run can execute the block by itself, whatever is below it. -/
structure Block.Executable (b : Block) : Prop where
  /-- What is stored is a value of a parameter that the kind takes. -/
  stored : ∀ p x, b.settings.get? p = some x → b.kind.accepts p = true ∧ x.isFinite = true ∧
    p.low ≤ x ∧ x ≤ p.high ∧ (p.isWhole = true → ∃ n : Nat, x = Double.ofNat n)
  /-- Setting it again changes nothing. -/
  again : ∀ p x, b.settings.get? p = some x → b.set p x = .ok b
  /-- A repeat is executed as often as it says. -/
  count : ∃ n : Nat, b.value .times = Double.ofNat n ∧ 1 ≤ n ∧ n ≤ 10 ∧ b.settings.iterations = n
  /-- The length of a straight motion exists. -/
  length : ∃ d, Duration.ofSeconds (b.value .duration) = .ok d
  /-- The length of a pause exists. -/
  pause : 1000 ≤ (b.value .seconds * 1000.0).toUInt64.toNat ∧
    (b.value .seconds * 1000.0).toUInt64.toNat ≤ 10000
  /-- Only turns can fail. -/
  steps : ∀ (t : Timing) (fault : DurationFault), ¬ b.kind.IsTurn →
    .fail fault ∉ t.actionSteps (b.kind, b.settings)

theorem Block.Valid.executable {b : Block} (h : b.Valid) : b.Executable := by
  obtain ⟨hfits, -, -⟩ := valid_iff.mp h
  obtain ⟨n, hn, h1, h10, hcount⟩ := (hfits.value .times).count
  refine ⟨hfits, fun p x hx => ?_, ⟨n, hn, h1, h10, hcount⟩,
    Duration.ofSeconds_of_admits (hfits.value .duration), (hfits.value .seconds).pause,
    fun t fault hturn => fail_not_mem_actionSteps (l := (b.kind, b.settings)) hfits
      (fun h => absurd h hturn) fault⟩
  cases b
  exact bind_eq_ok.mpr ⟨_, hfits.set_stored hx, rfl⟩

/-! ### Programs -/

namespace Program

variable {p : Program}

theorem Reachable.fits (hp : p.Reachable) {id : NodeId} {n : Node} (hn : p.node? id = some n) :
    n.settings.Fits n.kind := by
  obtain ⟨path, b, -, hb, hblock⟩ := hp.exists_blockAt ⟨n, hn⟩
  obtain ⟨hfits, -, -⟩ := Block.valid_iff.mp (hp.blockAt_valid hblock)
  rw [subtree?] at hb
  rcases hsize : p.slots.size with _ | size
  · rw [hsize] at hb
    cases hb
  · rw [hsize, blockWithin, hn] at hb
    cases hb
    exact hfits

/-- **Setting a stored value again** is accepted and leaves the nodes as they are. -/
theorem Reachable.setParam_stored (hp : p.Reachable) {path : Path} {id : NodeId} {n : Node}
    (hid : p.resolve path = .ok id) (hn : p.node? id = some n) {param : Param} {x : Float}
    (hx : n.settings.get? param = some x) : p.setParam path param x = .ok p.bumped := by
  refine bind_eq_ok.mpr ⟨id, hid, bind_eq_ok.mpr ⟨n, node_eq_ok_iff.mpr hn, ?_⟩⟩
  rw [(hp.fits hn).set_stored hx]
  simp only
  rw [modifyNode_self hn rfl]
  rfl

end Program

/-- **Stored values can be executed.** In whatever way a block was built, it and all blocks below it
store only values of parameters that their kinds take, each finite, between the bounds, and whole if
it counts; a repeat runs as often as it says, from once to ten times; the lengths of motions and
pauses exist; and setting a stored value again, on the block or in a program, is accepted and
changes no block. For clamping takes finite numbers to values of the domain, keeps their order, and
does nothing to values that are clamped already. -/
theorem stored_values_executable :
    (∀ b : Block, b.Built → ∀ c ∈ b.row, c.Executable) ∧
    (∀ p : Program, p.Built → ∀ path id n, p.resolve path = .ok id → p.node? id = some n →
      ∀ param x, n.settings.get? param = some x → n.kind.accepts param = true ∧ param.Admits x ∧
        p.setParam path param x = .ok p.bumped) ∧
    (∀ (param : Param) (x y : Float), x.isFinite = true → y.isFinite = true → x ≤ y →
      ∃ x' y', param.clamp? x = some x' ∧ param.clamp? y = some y' ∧ x' ≤ y') ∧
    ∀ (param : Param) (x : Float), x.isFinite = true →
      ∃ y, param.clamp? x = some y ∧ param.Admits y ∧ param.clamp? y = some y := by
  refine ⟨fun b hb c hc => (Block.valid_of_mem_row b hb.valid c hc).executable,
    fun p hp path id n hid hn param x hx => ?_, fun param x y hx hy h => Param.clamp?_mono hx hy h,
    fun param x hx => ?_⟩
  · obtain ⟨haccepts, hadmits⟩ := hp.reachable.fits hn param x hx
    exact ⟨haccepts, hadmits, hp.reachable.setParam_stored hid hn hx⟩
  · have hclamp := Param.clamp?_eq_held param hx
    exact ⟨_, hclamp, Param.clamp?_admits hclamp, Param.clamp?_clamp? hclamp⟩

/-- A repeat of two and a half times, which is three times, with a drive below it that is too
fast. -/
theorem rounded_loop_executable : ∃ drive b : Block, b.Built ∧
    (Block.ofKind .moveForward).set .speed 7.0 = .ok drive ∧ Block.ofLoop 2.5 [drive] = .ok b ∧
    drive.settings.get? .speed = some 0.3 ∧ drive.set .speed 0.3 = .ok drive ∧
    b.value .times = 3.0 ∧ b.settings.iterations = 3 := by
  have hspeed : Settings.empty.set .moveForward .speed 7.0 = .ok { speed := some 0.3 } :=
    Settings.set_of_clamp? _ rfl (by decide +kernel)
  have htimes : Settings.empty.set .loop .times 2.5 = .ok { times := some 3.0 } :=
    Settings.set_of_clamp? _ rfl (by decide +kernel)
  have hset : (Block.ofKind .moveForward).set .speed 7.0 =
      .ok ⟨.moveForward, { speed := some 0.3 }, []⟩ := bind_eq_ok.mpr ⟨_, hspeed, rfl⟩
  have hloop : Block.ofLoop 2.5 [⟨.moveForward, { speed := some 0.3 }, []⟩] =
      .ok ⟨.loop, { times := some 3.0 }, [⟨.moveForward, { speed := some 0.3 }, []⟩]⟩ :=
    bind_eq_ok.mpr ⟨_, bind_eq_ok.mpr ⟨_, htimes, rfl⟩, rfl⟩
  have hbuilt : Block.Built ⟨.loop, { times := some 3.0 },
      [⟨.moveForward, { speed := some 0.3 }, []⟩]⟩ :=
    .ofLoop (List.forall_mem_singleton.mpr (.set (.ofKind .moveForward) hset)) hloop
  obtain ⟨hrow, -⟩ := stored_values_executable
  have hdrive := hrow _ hbuilt ⟨.moveForward, { speed := some 0.3 }, []⟩
    (by simp [Block.row, Block.rows])
  obtain ⟨n, hn, -, hle, hcount⟩ := (hrow _ hbuilt _ List.mem_cons_self).count
  have hthree : ∀ n ≤ 10, (3.0 : Float) = Double.ofNat n → n = 3 := by decide +kernel
  exact ⟨_, _, hbuilt, hset, hloop, rfl, hdrive.again .speed 0.3 rfl, rfl,
    hcount.trans (hthree n hle hn)⟩

end Choreo
