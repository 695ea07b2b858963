import LiquidStaking.Hub.Reconciliation
import LiquidStaking.Hub.Lifecycle
import LiquidStaking.Hub.Miner
import LiquidStaking.Hub.Config
import LiquidStaking.Hub.Selection
import LiquidStaking.Hub.ProofOfWork
import LiquidStaking.Hub.Refunds
import LiquidStaking.SteakHub.Payout
import LiquidStaking.SteakHub.Refunds
