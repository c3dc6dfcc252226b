import PureSsh.Agent.Lock
import PureSsh.Auth.Caps
import PureSsh.Channel.Atomic
import PureSsh.Channel.FlowControl
import PureSsh.Channel.RoundTrip
import PureSsh.Compress
import PureSsh.Config.Time
import PureSsh.Daemon.Children
import PureSsh.Driver.Version
import PureSsh.Key.AuthorizedLine
import PureSsh.Key.PrivateFile
import PureSsh.Knock.Build
import PureSsh.Knock.Limits
import PureSsh.Knock.Pending
import PureSsh.Knock.Prefixes
import PureSsh.KnownHosts.Combined
import PureSsh.KnownHosts.Keygen
import PureSsh.KnownHosts.Revoked
import PureSsh.KnownHosts.RotationSound
import PureSsh.Scp.SingleFile
import PureSsh.Scp.Transfer
import PureSsh.Sftp.Effects
import PureSsh.Sftp.FetchNames
import PureSsh.Sftp.ReadTo
import PureSsh.Sshsig.Calendar
import PureSsh.Sshsig.Trust
import PureSsh.Transport.Agreement
import PureSsh.Transport.DecodeSafety
import PureSsh.Transport.Extensions
import PureSsh.Transport.GexRange
import PureSsh.Transport.Rekey
