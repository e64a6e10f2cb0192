import Hscl.Harness.Basic

/-! The cgroup table of `upscale_fairness_cgroups.c` as `init_cgroup_configs` fills it. -/
namespace Hscl.Cgroups

/-- `cgroup_type_t`. -/
inductive CgroupType
  | root
  | system
  | user
  | realtime
  | batch
  | interactive
  | network
  | io
  deriving DecidableEq, Repr

/-- `cgroup_config_t`. -/
structure CgroupConfig where
  cgroupId : ℕ
  type : CgroupType
  name : String
  weight : ℤ
  cpuShares : ℤ
  rtPriority : ℤ
  niceValue : ℤ
  throttleQuota : ℤ
  threadCount : ℕ
  deriving DecidableEq, Repr

/-- A slot of the static `cgroups[MAX_CGROUPS]` array that `init_cgroup_configs` never writes. -/
def CgroupConfig.zero : CgroupConfig :=
  ⟨0, .root, "", 0, 0, 0, 0, 0, 0⟩

/-- `num_cgroups` after `init_cgroup_configs`. -/
def numCgroups : ℕ := 6

/-- `cgroups[]` after `init_cgroup_configs`; indices run over `MAX_CGROUPS = 8` slots. -/
def initCgroupConfigs : Fin 8 → CgroupConfig
  | 0 => ⟨0, .root, "root", 1024, 1024, 0, 0, 0, 0⟩
  | 1 => ⟨1, .system, "system", 2048, 2048, 10, -10, 0, 0⟩
  | 2 => ⟨2, .realtime, "realtime", 4096, 4096, 20, -20, 0, 0⟩
  | 3 => ⟨3, .interactive, "interactive", 1536, 1536, 0, -5, 0, 0⟩
  | 4 => ⟨4, .user, "user", 1024, 1024, 0, 0, 0, 0⟩
  | 5 => ⟨5, .batch, "batch", 512, 512, 0, 10, 50, 0⟩
  | _ => .zero

end Hscl.Cgroups
