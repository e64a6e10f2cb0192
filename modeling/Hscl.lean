import Hscl.Harness.Binary64
import Hscl.Harness.Basic
import Hscl.Harness.Key
import Hscl.Harness.Store
import Hscl.Harness.Nodes
import Hscl.Run.Machine
import Hscl.Run.Exclusion
import Hscl.Run.Keys
import Hscl.Run.Local
import Hscl.Run.Progress
import Hscl.FairnessTest.Worker
import Hscl.FairnessTest.Hierarchy
import Hscl.Run.Database
import Hscl.Cgroups.Config
import Hscl.Cgroups.Hierarchy
import Hscl.Cgroups.Worker
import Hscl.Mutex.Worker
import Hscl.Mutex.Handoffs
import Hscl.Mutex.Tracking
import Hscl.Runs
import Hscl.Analysis.Double
import Hscl.Analysis.Moments
import Hscl.Analysis.Hierarchy
import Hscl.Analysis.Indices
import Hscl.Analysis.Fairness
import Hscl.Analysis.Cgroups
import Hscl.Analyzers
import Hscl.Sample.Machine
import Hscl.Sample.Records
import Hscl.Sample.Runs
