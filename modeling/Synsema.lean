import Synsema.Abi.Allocation
import Synsema.Agents.Rollback
import Synsema.Agents.Subscribers
import Synsema.Algorand.Canonical
import Synsema.Algorand.Mnemonic
import Synsema.Arith.Integers
import Synsema.Arith.Root
import Synsema.Arith.Rounded
import Synsema.Blockchain.RlpSafe
import Synsema.Btc.Shown
import Synsema.Capability.DbUrl
import Synsema.Capability.Disk
import Synsema.Capability.FirstCovering
import Synsema.Capability.NetLayers
import Synsema.Capscope.Walk
import Synsema.Captoken.Issued
import Synsema.Cbor.Cose
import Synsema.Cron.Next
import Synsema.Cron.OneJob
import Synsema.Csv.Reference
import Synsema.Csv.Roundtrip
import Synsema.Eip712.Binds
import Synsema.Http.OneRequest
import Synsema.Httpsig.Binding
import Synsema.Jit.Sound
import Synsema.Json.Roundtrip
import Synsema.Labels.Balance
import Synsema.Labels.Flow
import Synsema.Llm.Budget
import Synsema.Llm.Decide
import Synsema.Llm.Streamed
import Synsema.Net.Pipe
import Synsema.Rng.Sample
import Synsema.Runtime.Parallel
import Synsema.Runtime.RunProgram
import Synsema.Runtime.Subject
import Synsema.Secrets.Crossed
import Synsema.Secrets.Destination
import Synsema.Server.Accounts
import Synsema.Server.ClientIp
import Synsema.Server.Multipart
import Synsema.Server.PoolLaw
import Synsema.Server.MostSpecific
import Synsema.Server.Paging
import Synsema.Server.RoutePlan
import Synsema.Solana.Says
import Synsema.Templates.Once
import Synsema.Temporal.Reference
import Synsema.Vm.Exact
