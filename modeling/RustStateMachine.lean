import RustStateMachine.Lib.Exec
import RustStateMachine.Support
import RustStateMachine.Balances
import RustStateMachine.ProofOfExistence
import RustStateMachine.System
import RustStateMachine.Runtime
import RustStateMachine.Execution
import RustStateMachine.Conservation
import RustStateMachine.Node
import RustStateMachine.Rejection
import RustStateMachine.Delivery
import RustStateMachine.Replay
import RustStateMachine.Authorization
import RustStateMachine.ClaimPersistence
import RustStateMachine.Persistence
import RustStateMachine.Crash
import RustStateMachine.Lib.Runs
import RustStateMachine.Selection
import RustStateMachine.Agreement
import RustStateMachine.Production
import RustStateMachine.Cli
import RustStateMachine.Client
import RustStateMachine.Lib.Sessions
import RustStateMachine.Peers
import RustStateMachine.Atomicity
import RustStateMachine.Skipping
import RustStateMachine.Commutation
import RustStateMachine.Genesis
import RustStateMachine.Signing
import RustStateMachine.Accounting
import RustStateMachine.Wire
import RustStateMachine.CallMacro
import RustStateMachine.Process
import RustStateMachine.Branches
import RustStateMachine.Custody
import RustStateMachine.Lag
import RustStateMachine.Forks
import RustStateMachine.Ledger
import RustStateMachine.Fates
import RustStateMachine.RuntimeMacro
import RustStateMachine.Generated
import RustStateMachine.Composition
import RustStateMachine.Losses
import RustStateMachine.Orders
import RustStateMachine.Equivocation
import RustStateMachine.Remote
