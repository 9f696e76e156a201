import Pinpam.Core.Legacy
import Pinpam.Core.Rollback
import Pinpam.Core.Survival
import Pinpam.Core.Storage
import Pinpam.Core.BruteForce
import Pinpam.Core.Lockout
import Pinpam.Core.Contest
import Pinpam.Core.Login
import Pinpam.Core.Isolation
import Pinpam.Util.Reports
import Pinpam.Util.Replacement
import Pinpam.MasterKey.Clearing
import Pinpam.Pam.LockTests
import Pinpam.Effect.Runs
import Pinpam.MasterKey.Vault
import Pinpam.MasterKey.Phrase
import Pinpam.MasterKey.Retry
import Pinpam.MasterKey.Recovery
import Pinpam.Core.Lifecycle
import Pinpam.Nix.Policy
import Pinpam.Util.Limits
import Pinpam.Pam.Authenticate
import Pinpam.Pam.Session
import Pinpam.Pam.FirstPass
import Pinpam.Util.Remaining
import Pinpam.Pam.Attempts
import Pinpam.Pam.Framing
import Pinpam.Pam.Verdicts
import Pinpam.Pam.Entries
import Pinpam.Core.Missing
import Pinpam.Core.Deletion
import Pinpam.Core.Bounds
import Pinpam.Util.Privileges
import Pinpam.Util.Change
import Pinpam.Util.Wedged
import Pinpam.Pam.Soundness
import Pinpam.Core.Secrecy
import Pinpam.Pam.Visits
import Pinpam.Pam.Logins
import Pinpam.Core.PolicyFile
import Pinpam.Util.Streams
import Pinpam.Pam.Token
import Pinpam.MasterKey.Rivals
import Pinpam.MasterKey.Race
import Pinpam.Util.Registry
import Pinpam.MasterKey.Wallet
