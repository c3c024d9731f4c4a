import DcmAgent.Upload.Fallback
import DcmAgent.Upload.LockLaw
import DcmAgent.Upload.MarkerUpdate
import DcmAgent.Upload.Privacy
import DcmAgent.Daemon.RunJobs
import DcmAgent.Daemon.BootUpload
import DcmAgent.Daemon.MainLoop
import DcmAgent.Daemon.Schedules
import DcmAgent.Daemon.Layout
import DcmAgent.Daemon.Telemetry
import DcmAgent.Scheduler.Deadline
import DcmAgent.Scheduler.Stopped
import DcmAgent.Scheduler.Instants
import DcmAgent.Cron.Complete
import DcmAgent.Cron.Sound
import DcmAgent.Cron.RoundTrip
import DcmAgent.Cron.InBounds
import DcmAgent.Backup.Finish
import DcmAgent.Backup.Generations
import DcmAgent.Backup.Boots
import DcmAgent.Backup.Loss
import DcmAgent.Backup.Restarts
import DcmAgent.Archive.RoundTrip
import DcmAgent.Reboot.Aborted
import DcmAgent.Dri.Loss
import DcmAgent.Backup.Overwrites
import DcmAgent.Conf.UploadFlag
import DcmAgent.Upload.Verdict
import DcmAgent.Upload.Requests
import DcmAgent.Upload.Md5Utils
import DcmAgent.Daemon.SingleInstance
import DcmAgent.Daemon.Shutdown
import DcmAgent.Reboot.Timestamps
import DcmAgent.Conf.Window
import DcmAgent.Upload.TreeRemoval
import DcmAgent.Backup.SpecialFiles
import DcmAgent.Reboot.UploadLogsNow
import DcmAgent.Upload.ProxyUrl
import DcmAgent.Usb.Move
import DcmAgent.Reboot.Sentinel
import DcmAgent.Daemon.Properties
import DcmAgent.Upload.ExpiredBackups
import DcmAgent.Cron.Split
import DcmAgent.Cron.Replace
import DcmAgent.Cron.Strict
import DcmAgent.Cron.FieldSearch
import DcmAgent.Conf.RoundTrip
import DcmAgent.Strategies.OnDemand
import DcmAgent.Strategies.Dcm
import DcmAgent.Strategies.LogsNow
import DcmAgent.Cron.Regular
import DcmAgent.Scheduler.EachInstant
import DcmAgent.Reboot.Kept
import DcmAgent.Strategies.Handoff
import DcmAgent.Upload.BlockHistory
