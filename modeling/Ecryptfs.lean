import Ecryptfs.Lib.Words
import Ecryptfs.Lib.BigEndian
import Ecryptfs.Lib.Integers
import Ecryptfs.Lib.Memory
import Ecryptfs.Lib.Access
import Ecryptfs.Lib.Acyclic
import Ecryptfs.Lib.Machine
import Ecryptfs.Lib.Records
import Ecryptfs.Lib.LinkedList
import Ecryptfs.Lib.Separated
import Ecryptfs.Lib.Covering
import Ecryptfs.Lib.Credentials
import Ecryptfs.Lib.Registry
import Ecryptfs.Lib.Ledger
import Ecryptfs.CString
import Ecryptfs.Passphrase.Signature
import Ecryptfs.Passphrase.Prompts
import Ecryptfs.Passphrase.Wrap
import Ecryptfs.Passphrase.WrapProof
import Ecryptfs.Passphrase.WrapFile
import Ecryptfs.Messaging.PacketLength
import Ecryptfs.Messaging.Miscdev
import Ecryptfs.Messaging.Packets
import Ecryptfs.Messaging.Daemon
import Ecryptfs.Messaging.DaemonProof
import Ecryptfs.Messaging.KeyPayload
import Ecryptfs.Messaging.Replies
import Ecryptfs.Messaging.Ownership
import Ecryptfs.Messaging.SessionKeys
import Ecryptfs.KeyMod.Openssl
import Ecryptfs.Messaging.MountedKeys
import Ecryptfs.Passphrase.Lifecycle
import Ecryptfs.Graph.Engine
import Ecryptfs.Graph.EngineProof
import Ecryptfs.Graph.Quiet
import Ecryptfs.Graph.Runs
import Ecryptfs.Graph.Queue
import Ecryptfs.Graph.Invariant
import Ecryptfs.Graph.Retrieval
import Ecryptfs.Graph.Build
import Ecryptfs.Graph.ExitNodes
import Ecryptfs.Graph.Transitions
import Ecryptfs.Graph.Selection
import Ecryptfs.Graph.Calls
import Ecryptfs.Mount.Graph
import Ecryptfs.Mount.Modules
import Ecryptfs.Mount.SaltText
import Ecryptfs.Mount.Shape
import Ecryptfs.Mount.Callbacks
import Ecryptfs.Mount.Rewiring
import Ecryptfs.Mount.Termination
import Ecryptfs.Mount.Tail
import Ecryptfs.Mount.CipherLimits
import Ecryptfs.Mount.KeyModules
import Ecryptfs.KeyMod.Register
import Ecryptfs.KeyMod.KeySignature
import Ecryptfs.KeyMod.Blobs
import Ecryptfs.KeyMod.Tickets
import Ecryptfs.Options.Parser
import Ecryptfs.Options.Grammar
import Ecryptfs.Options.Tokens
import Ecryptfs.Options.Lengths
import Ecryptfs.Options.Composition
import Ecryptfs.Options.File
import Ecryptfs.Options.Reading
import Ecryptfs.Options.Union
import Ecryptfs.Options.Merge
import Ecryptfs.Mount.PassphraseModule
import Ecryptfs.Mount.Keys
import Ecryptfs.Mount.CipherChoice
import Ecryptfs.Mount.LinearModules
import Ecryptfs.Mount.MountOptions
import Ecryptfs.Mount.PassphraseFile
import Ecryptfs.Mount.FilenameNodes
import Ecryptfs.Mount.FilenameCrypto
import Ecryptfs.Mount.SignatureCache
import Ecryptfs.Mount.UserOptions
import Ecryptfs.Mount.MountCall
import Ecryptfs.Passphrase.Keyring
import Ecryptfs.Passphrase.SignatureBuffers
import Ecryptfs.Passphrase.StdinString
import Ecryptfs.KeyMod.Uuid
import Ecryptfs.Umount.UnlinkKeys
import Ecryptfs.Private.Counter
import Ecryptfs.Private.CounterRuns
import Ecryptfs.Private.Signatures
import Ecryptfs.Private.Mtab
import Ecryptfs.Private.Forced
import Ecryptfs.Pam.Privileges
import Ecryptfs.Stat.Header
import Ecryptfs.Stat.ShortFile
import Ecryptfs.Zombie.Table
import Ecryptfs.Zombie.TableProof
import Ecryptfs.Zombie.Semaphore
import Ecryptfs.Zombie.Placeholders
import Ecryptfs.Private.Logins
import Ecryptfs.Graph.Endings
import Ecryptfs.Mount.Secrets
import Ecryptfs.Mount.Command
import Ecryptfs.Mount.PassphraseCommand
import Ecryptfs.Mount.OpensslModule
import Ecryptfs.Mount.OpensslMount
import Ecryptfs.Mount.SignaturePrompts
